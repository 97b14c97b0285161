import Tributaries.Proto.TreeOps

/-! # The invariants are kept

  Each effect keeps each invariant.  Most effects leave every node in its
  place, and then only the clause about the store they write is at stake;
  the seven edits of the tree are taken one by one through their equation
  in the slot forest.
-/

open Std Collections SlotForest

namespace Proto

variable {m m' : Monitor} {k : Option Answer}

theorem state_of_node {x : WatchId} {node : WatchNode} (h : m.nodes[x]? = some node) :
    m.state_of x = some node.state := by
  simp [Monitor.state_of, h]

theorem scope_of_node {x : WatchId} {node : WatchNode} (h : m.nodes[x]? = some node) :
    m.scope_of x = some node.scope := by
  simp [Monitor.scope_of, h]

/-! ### Effects that leave every node in its place -/

theorem Deliver.placed (h : Deliver m m') : Placed m m' := by
  rw [h.shape]
  exact .of_eq rfl rfl rfl rfl

theorem Ledger.placed (h : Ledger m m') : Placed m m' := by
  rw [h.shape]
  exact .of_eq rfl rfl rfl rfl

theorem set_state_placed (id : WatchId) (state : NodeState) : Placed m (m.set_state id state) := by
  obtain ⟨_, _, _, h⟩ := m.set_state_shape id state
  rw [h]
  exact .of_modify rfl rfl rfl rfl fun _ => rfl

theorem modify_placed {id : WatchId} {f : WatchNode → WatchNode} (hf : ∀ n, (f n).place = n.place) :
    Placed m (m.modify_node id f) :=
  .of_modify rfl rfl rfl rfl hf

theorem queue_enumerate_placed (dir : WatchId) (kind : EnumKind) (attempts : Nat) :
    Placed m (m.queue_enumerate dir kind attempts) := by
  cases hn : m.nodes[dir]? with
  | none =>
    simp only [Monitor.queue_enumerate, Monitor.state_of, hn, Option.map_none]
    exact .refl m
  | some node =>
    obtain ⟨_, _, _, h⟩ := m.queue_enumerate_shape hn kind attempts
    rw [h]
    exact .of_modify rfl rfl rfl rfl fun _ => rfl

theorem start_reinstall_placed (watch : WatchId) : Placed m (m.start_reinstall watch) := by
  cases hn : m.nodes[watch]? with
  | none =>
    simp only [Monitor.start_reinstall, Monitor.scope_of, hn, Option.map_none]
    exact .refl m
  | some node =>
    by_cases hs : ∃ rearm reprove, node.state = .arming rearm reprove
    · obtain ⟨rearm, reprove, hs⟩ := hs
      obtain ⟨_, _, _, _, h⟩ := m.start_reinstall_arming hn hs
      rw [h]
      exact .of_modify rfl rfl rfl rfl fun _ => rfl
    · obtain ⟨_, _, _, _, _, h⟩ := m.start_reinstall_shape hn (by simpa using hs)
      rw [h]
      exact .of_modify rfl rfl rfl rfl fun _ => rfl

theorem Work.placed (h : Work k m m') : Placed m m' := by
  cases h with
  | read => exact queue_enumerate_placed _ _ _
  | @redirty dir scope req kind =>
    obtain ⟨_, _, _, h⟩ := m.redirty_shape dir scope req kind
    rw [h]
    exact .of_modify rfl rfl rfl rfl fun _ => rfl
  | promote => exact set_state_placed _ _
  | overtake =>
    refine modify_placed fun n => ?_
    cases n.state <;> rfl
  | reinstall => exact start_reinstall_placed _
  | arm => exact .of_modify rfl rfl rfl rfl fun _ => rfl

/-- A stat raises the one outstanding for its slot, or is queued beside it. -/
theorem queue_stat_eq (parent : WatchId) (scope : ScopeId) (name : Segment) :
    ∃ reqs slots stat losses actions,
      (reqs = m.req_ids ∨ reqs = ⟨m.req_ids.next.succ⟩) ∧
      (actions = m.actions ∨ actions = m.actions ++ [.stat m.req_ids.next parent name]) ∧
      (∀ (req : ReqId) (slot' : StatSlot), stat[req]? = some slot' →
        (∃ slot : StatSlot, m.pending_stat[req]? = some slot ∧ slot'.parent = slot.parent ∧
            slot'.scope = slot.scope) ∨
          (m.nodes[parent]? ≠ none ∧ slot'.parent = parent ∧ slot'.scope = scope)) ∧
      m.queue_stat parent scope name =
        { m with
          req_ids := reqs
          stat_slots := slots
          pending_stat := stat
          stat_losses := losses
          actions := actions } := by
  have hsame : ∀ (req : ReqId) (slot' : StatSlot), m.pending_stat[req]? = some slot' →
      (∃ slot : StatSlot, m.pending_stat[req]? = some slot ∧ slot'.parent = slot.parent ∧
          slot'.scope = slot.scope) ∨
        (m.nodes[parent]? ≠ none ∧ slot'.parent = parent ∧ slot'.scope = scope) :=
    fun req slot' h => .inl ⟨slot', h, rfl, rfl⟩
  unfold Monitor.queue_stat
  by_cases hp : m.nodes.contains parent = true
  · rw [if_neg (by simp [hp])]
    have hp' : m.nodes[parent]? ≠ none := by
      obtain ⟨n, hn⟩ := contains_iff.mp hp
      simp [hn]
    dsimp only
    split
    · rename_i outstanding _
      split
      · unfold Monitor.raise_stat_darkness
        split
        · exact ⟨_, _, _, _, _, .inl rfl, .inl rfl, hsame, rfl⟩
        · rename_i slot hs
          refine ⟨m.req_ids, m.stat_slots, m.pending_stat.insert outstanding
            { slot with dark_uncovered := true, stands_loss := true },
            if slot.stands_loss then m.stat_losses
            else Monitor.count_up m.stat_losses slot.scope,
            m.actions, .inl rfl, .inl rfl, ?_, ?_⟩
          · intro req slot' h
            rw [get_insert] at h
            by_cases hr : outstanding = req
            · rw [if_pos hr] at h
              cases h
              exact .inl ⟨slot, hr ▸ hs, rfl, rfl⟩
            · rw [if_neg hr] at h
              exact hsame req slot' h
          · dsimp only
            split <;> rfl
      · exact ⟨_, _, _, _, _, .inl rfl, .inl rfl, hsame, rfl⟩
    · have hnew : ∀ slot : StatSlot, slot.parent = parent → slot.scope = scope →
          ∀ (req : ReqId) (slot' : StatSlot),
          (m.pending_stat.insert m.req_ids.next slot)[req]? = some slot' →
          (∃ slot : StatSlot, m.pending_stat[req]? = some slot ∧ slot'.parent = slot.parent ∧
              slot'.scope = slot.scope) ∨
            (m.nodes[parent]? ≠ none ∧ slot'.parent = parent ∧ slot'.scope = scope) := by
        intro slot hpar hsc req slot' h
        rw [get_insert] at h
        split at h
        · cases h
          exact .inr ⟨hp', hpar, hsc⟩
        · exact hsame req slot' h
      cases hb : (Monitor.in_bootstrap_window { m with req_ids := ⟨m.req_ids.next.succ⟩ } scope
        || (m.child_watch parent name).isNone)
      all_goals
        simp only [Monitor.next_req_id, Sequence.mint, Monitor.stat_loss_inc, hb, if_true,
          Bool.false_eq_true, if_false]
        exact ⟨_, _, _, _, _, .inr rfl, .inr rfl, hnew _ rfl rfl, rfl⟩
  · rw [if_pos (by rw [eq_false_of_ne_true hp]; rfl)]
    exact ⟨_, _, _, _, _, .inl rfl, .inl rfl, hsame, rfl⟩

/-! ### Reads -/

/-- The read a state waits for. -/
def NodeState.request : NodeState → Option ReqId
  | .enumerating req _ _ _ => some req
  | _ => none

theorem request_eq {state : NodeState} {req : ReqId} :
    state.request = some req ↔ ∃ k a d, state = .enumerating req k a d := by
  cases state <;> simp [NodeState.request]

theorem forget_pending (state : NodeState) (req : ReqId) :
    (m.forget_state state).pending_enumerate[req]? =
      if state.request = some req then none else m.pending_enumerate[req]? := by
  unfold Monitor.forget_state NodeState.request
  cases state <;> simp [Monitor.forget_read, get_erase]

theorem forget_latent (state : NodeState) (req : ReqId) :
    (m.forget_state state).latent_cold[req]? =
      if state.request = some req then none else m.latent_cold[req]? := by
  unfold Monitor.forget_state NodeState.request
  cases state <;> simp [Monitor.forget_read, get_erase]

theorem Reads.requested (h : Reads m) {x : WatchId} {node : WatchNode}
    (hn : m.nodes[x]? = some node) (req : ReqId) (hr : node.state.request = some req) :
    m.pending_enumerate[req]? = some x := by
  obtain ⟨k, a, d, hs⟩ := request_eq.mp hr
  exact h.reading x req k a d (by simp [Monitor.state_of, hn, hs])

/-- A node leaves its state for one that waits for no read. -/
theorem Reads.leave {x : WatchId} {node : WatchNode} (st : Option NodeState) (h : Reads m)
    (hn : m.nodes[x]? = some node) (hst : ∀ s, st = some s → s.request = none)
    (hs : ∀ y, m'.state_of y = if y = x then st else m.state_of y)
    (hsc : ∀ y, y ≠ x → m'.scope_of y = m.scope_of y)
    (hp : m'.pending_enumerate = (m.forget_state node.state).pending_enumerate)
    (hl : m'.latent_cold = (m.forget_state node.state).latent_cold)
    (hr : m'.req_ids = m.req_ids) : Reads m' := by
  have hx := state_of_node hn
  have hxr := h.requested hn
  have hread := h.reading
  have hwait := h.waiting
  have hlat := h.latent
  refine ⟨?_, ?_, ?_⟩
  · intro y req k a d hy
    rw [hp, forget_pending]
    grind [NodeState.request]
  · intro req y hy
    rw [hp, forget_pending] at hy
    rw [hr]
    have hw := hwait req y
    grind [NodeState.request]
  · intro req s hq
    rw [hl, forget_latent] at hq
    obtain ⟨y, a, h₁, h₂, h₃⟩ := hlat req s (by grind)
    refine ⟨y, a, ?_, ?_, ?_⟩
    · rw [hp, forget_pending]
      grind
    · grind [NodeState.request]
    · grind [NodeState.request]

/-- A node begins a fresh read. -/
theorem Reads.enter {x : WatchId} {node : WatchNode} (kind : EnumKind) (attempts : Nat)
    (h : Reads m) (hn : m.nodes[x]? = some node)
    (hs : ∀ y, m'.state_of y =
      if y = x then some (.enumerating m.req_ids.next kind attempts false) else m.state_of y)
    (hsc : ∀ y, m'.scope_of y = m.scope_of y)
    (hp : m'.pending_enumerate =
      (m.forget_state node.state).pending_enumerate.insert m.req_ids.next x)
    (hl : m'.latent_cold = (m.forget_state node.state).latent_cold)
    (hr : m'.req_ids = ⟨m.req_ids.next.succ⟩) : Reads m' := by
  have hx := state_of_node hn
  have hxr := h.requested hn
  have hread := h.reading
  have hwait := h.waiting
  have hlat := h.latent
  have hlt : ∀ req : ReqId, req < m.req_ids.next → req ≠ m.req_ids.next ∧
      req < m.req_ids.next.succ := by
    intro req hreq
    rw [ProtoId.lt_def] at hreq ⊢
    refine ⟨?_, Nat.lt_succ_of_lt hreq⟩
    rintro rfl
    exact Nat.lt_irrefl _ hreq
  have hnext := ProtoId.lt_succ m.req_ids.next
  refine ⟨?_, ?_, ?_⟩
  · intro y req k a d hy
    rw [hp, get_insert, forget_pending]
    grind [NodeState.request]
  · intro req y hy
    rw [hp, get_insert, forget_pending] at hy
    rw [hr]
    have hw := hwait req y
    grind [NodeState.request]
  · intro req s hq
    rw [hl, forget_latent] at hq
    obtain ⟨y, a, h₁, h₂, h₃⟩ := hlat req s (by grind)
    have := hwait req y h₁
    refine ⟨y, a, ?_, ?_, ?_⟩
    · rw [hp, get_insert, forget_pending]
      grind
    · grind [NodeState.request]
    · grind [NodeState.request]

/-- A read outstanding at a node is overtaken. -/
theorem Reads.mark {x : WatchId} {req : ReqId} {kind : EnumKind} {attempts : Nat}
    (attempts' : Nat) {dirty : Bool} (h : Reads m)
    (hx : m.state_of x = some (.enumerating req kind attempts dirty))
    (hs : ∀ y, m'.state_of y =
      if y = x then some (.enumerating req kind attempts' true) else m.state_of y)
    (hsc : ∀ y, m'.scope_of y = m.scope_of y)
    (hp : m'.pending_enumerate = m.pending_enumerate)
    (hl : m'.latent_cold = m.latent_cold ∨ (kind = .cold ∧ ∃ s, m.scope_of x = some s ∧
      m'.latent_cold = m.latent_cold.insert req s))
    (hr : m'.req_ids = m.req_ids) : Reads m' := by
  have hread := h.reading
  have hwait := h.waiting
  have hlat := h.latent
  refine ⟨?_, ?_, ?_⟩
  · intro y req k a d hy
    rw [hp]
    grind
  · intro req y hy
    rw [hp] at hy
    rw [hr]
    have hw := hwait req y
    grind
  · intro r s hq
    rw [hp]
    rcases hl with hl | ⟨rfl, s', hs', hl⟩
    · rw [hl] at hq
      obtain ⟨y, a, h₁, h₂, h₃⟩ := hlat r s hq
      by_cases hy : y = x
      · refine ⟨y, attempts', h₁, ?_, ?_⟩ <;> grind
      · refine ⟨y, a, h₁, ?_, ?_⟩ <;> grind
    · rw [hl, get_insert] at hq
      by_cases hreq : req = r
      · refine ⟨x, attempts', ?_, ?_, ?_⟩ <;> grind
      · obtain ⟨y, a, h₁, h₂, h₃⟩ := hlat r s (by grind)
        by_cases hy : y = x
        · refine ⟨y, attempts', h₁, ?_, ?_⟩ <;> grind
        · refine ⟨y, a, h₁, ?_, ?_⟩ <;> grind

/-- A node is born that waits for no read. -/
theorem Reads.grow {r : WatchId} {st : NodeState} (h : Reads m) (hn : m.nodes[r]? = none)
    (hst : st.request = none)
    (hs : ∀ y, m'.state_of y = if y = r then some st else m.state_of y)
    (hsc : ∀ y, y ≠ r → m'.scope_of y = m.scope_of y)
    (hp : m'.pending_enumerate = m.pending_enumerate) (hl : m'.latent_cold = m.latent_cold)
    (hr : m'.req_ids = m.req_ids) : Reads m' := by
  have hr' : m.state_of r = none := by simp [Monitor.state_of, hn]
  have hread := h.reading
  have hwait := h.waiting
  have hlat := h.latent
  refine ⟨?_, ?_, ?_⟩
  · intro y req k a d hy
    rw [hp]
    grind [NodeState.request]
  · intro req y hy
    rw [hp] at hy
    rw [hr]
    have hw := hwait req y hy
    grind
  · intro req s hq
    rw [hl] at hq
    obtain ⟨y, a, h₁, h₂, h₃⟩ := hlat req s hq
    refine ⟨y, a, by rw [hp, h₁], ?_, ?_⟩
    · grind
    · grind

/-! ### Effects that only write a store -/

theorem Inv.same {g g' : Ghost} (h : Inv ⟨m, g⟩) (hp : Placed m m')
    (hd : g'.doomed = g.doomed) (ht : g'.transit = g.transit) (hsp : g'.spare = g.spare)
    (hm : m'.pending_moves = m.pending_moves) (hh : m'.held_sources = m.held_sources)
    (hr : Reads m') (hs : Monitor.Restats m.pending_stat m'.pending_stat) : Inv ⟨m', g'⟩ where
  tree := by
    rw [hp.shape, hd]
    exact h.tree
  minted x hx := by
    rw [hp.watch_ids]
    exact h.minted x fun he => hx (hp.dead_iff.mpr he)
  spare := by
    rw [hsp]
    exact h.spare.placed hp
  holds := by
    rw [ht, hsp]
    exact h.holds.placed hp hm hh
  reads := hr
  stats := h.stats.placed hp hs

theorem Deliver.inv {g : Ghost} (h : Inv ⟨m, g⟩) (d : Deliver m m') : Inv ⟨m', g⟩ := by
  have hp := d.placed
  rw [d.shape] at hp ⊢
  exact h.same hp rfl rfl rfl rfl rfl (h.reads.same rfl rfl rfl rfl rfl) (.refl _)

theorem Ledger.restats (l : Ledger m m') : Monitor.Restats m.pending_stat m'.pending_stat := by
  cases l with
  | heal_slot =>
    obtain ⟨_, _, _, hr, h⟩ := m.heal_slot_shape _ _ _
    rw [h]
    exact hr
  | take_stat =>
    obtain ⟨_, h⟩ := m.take_stat_shape _ _
    rw [h]
    intro r slot' hs
    rw [get_erase] at hs
    split at hs
    · simp at hs
    · exact ⟨slot', hs, rfl, rfl, rfl⟩
  | cover_vacancy =>
    obtain ⟨_, hr, h⟩ := m.cover_stat_vacancy_eq _ _
    rw [h]
    exact hr
  | record_slot =>
    obtain ⟨_, h⟩ := m.record_slot_shape _ _ _
    rw [h]
    exact .refl _
  | record_interior =>
    obtain ⟨_, h⟩ := m.record_interior_shape _ _
    rw [h]
    exact .refl _
  | heal_interior =>
    obtain ⟨_, _, h⟩ := m.heal_interior_shape _ _
    rw [h]
    exact .refl _
  | gc_book =>
    obtain ⟨_, h⟩ := m.gc_book_shape _
    rw [h]
    exact .refl _
  | book_hold => exact .refl _
  | unbook_hold => exact .refl _
  | stamp => exact .refl _
  | unstamp => exact .refl _
  | bump_loss_gen => exact .refl _
  | darken => exact .refl _
  | lighten => exact .refl _
  | owe => exact .refl _
  | disown => exact .refl _
  | spend_interior => exact .refl _
  | spend_slot => exact .refl _
  | spend_book => exact .refl _
  | window => exact .refl _

theorem Ledger.inv {g : Ghost} (h : Inv ⟨m, g⟩) (l : Ledger m m') : Inv ⟨m', g⟩ := by
  have hp := l.placed
  have hr := l.restats
  rw [l.shape] at hp hr ⊢
  exact h.same hp rfl rfl rfl rfl rfl (h.reads.same rfl rfl rfl rfl rfl) hr

theorem state_of_modify {id : WatchId} {f : WatchNode → WatchNode} {node : WatchNode}
    (hn : m.nodes[id]? = some node) (h : m'.nodes = m.nodes.modify id f) (y : WatchId) :
    m'.state_of y = if y = id then some (f node).state else m.state_of y := by
  simp only [Monitor.state_of, h, get_modify]
  by_cases hy : y = id
  · subst hy
    simp [hn]
  · simp [hy, Ne.symm hy]

theorem Work.reads (h : Reads m) (w : Work k m m') : Reads m' := by
  have hp := w.placed
  cases w with
  | @read dir kind attempts =>
    cases hn : m.nodes[dir]? with
    | none =>
      simp only [Monitor.queue_enumerate, Monitor.state_of, hn, Option.map_none]
      exact h
    | some node =>
      obtain ⟨_, _, _, he⟩ := m.queue_enumerate_shape hn kind attempts
      refine h.enter kind attempts hn ?_ hp.scope_of ?_ ?_ ?_
      · intro y
        exact state_of_modify hn (congrArg Monitor.nodes he) y
      all_goals rw [he]
  | @redirty dir scope req kind attempts dirty hs hsc =>
    obtain ⟨_, _, _, he⟩ := m.redirty_shape dir scope req kind
    obtain ⟨node, hn, -⟩ := Option.map_eq_some_iff.mp hs
    refine h.mark 0 hs ?_ hp.scope_of ?_ ?_ ?_
    · intro y
      exact state_of_modify hn (congrArg Monitor.nodes he) y
    · rw [he]
    · rw [he]
      by_cases hk : kind = .cold
      · exact .inr ⟨hk, scope, hsc, by simp [hk]⟩
      · exact .inl (by simp [hk])
    · rw [he]
  | @promote watch rearm reprove hs =>
    obtain ⟨_, _, _, he⟩ := m.set_state_shape watch (.arming true reprove)
    obtain ⟨node, hn, hst⟩ := Option.map_eq_some_iff.mp hs
    refine h.leave (some (.arming true reprove)) hn ?_ ?_ (fun y _ => hp.scope_of y)
      ?_ ?_ ?_
    · rintro s ⟨⟩
      rfl
    · intro y
      exact state_of_modify hn (congrArg Monitor.nodes he) y
    · rw [he, hst]
      rfl
    · rw [he, hst]
      rfl
    · rw [he]
  | @overtake watch =>
    cases hn : m.nodes[watch]? with
    | none =>
      have he : m.mark_enumerate_dirty watch = m := by
        unfold Monitor.mark_enumerate_dirty Monitor.modify_node
        rw [modify_absent hn]
      rw [he]
      exact h
    | some node =>
      cases hst : node.state with
      | enumerating req kind attempts dirty =>
        have hs : m.state_of watch = some (.enumerating req kind attempts dirty) := by
          rw [state_of_node hn, hst]
        refine h.mark attempts hs ?_ hp.scope_of rfl (.inl rfl) rfl
        · intro y
          rw [state_of_modify hn rfl y, hst]
      | live =>
        refine h.same ?_ (funext hp.scope_of) rfl rfl rfl
        funext y
        rw [state_of_modify hn rfl y, hst]
        split
        · simp_all [state_of_node hn]
        · rfl
      | arming rearm reprove =>
        refine h.same ?_ (funext hp.scope_of) rfl rfl rfl
        funext y
        rw [state_of_modify hn rfl y, hst]
        split
        · simp_all [state_of_node hn]
        · rfl
  | @reinstall watch =>
    cases hn : m.nodes[watch]? with
    | none =>
      simp only [Monitor.start_reinstall, Monitor.scope_of, hn, Option.map_none]
      exact h
    | some node =>
      by_cases hs : ∃ rearm reprove, node.state = .arming rearm reprove
      · obtain ⟨rearm, reprove, hs⟩ := hs
        obtain ⟨_, _, _, _, he⟩ := m.start_reinstall_arming hn hs
        refine h.leave (some (.arming true true)) hn ?_ ?_ (fun y _ => hp.scope_of y)
          ?_ ?_ ?_
        · rintro s ⟨⟩
          rfl
        · intro y
          exact state_of_modify hn (congrArg Monitor.nodes he) y
        · rw [he, hs]
          rfl
        · rw [he, hs]
          rfl
        · rw [he]
      · obtain ⟨_, _, _, _, _, he⟩ := m.start_reinstall_shape hn (by simpa using hs)
        refine h.leave (some (.arming true true)) hn ?_ ?_ (fun y _ => hp.scope_of y)
          ?_ ?_ ?_
        · rintro s ⟨⟩
          rfl
        · intro y
          exact state_of_modify hn (congrArg Monitor.nodes he) y
        all_goals rw [he]
  | @arm watch target mask rearm reprove hs =>
    obtain ⟨node, hn, -⟩ := Option.map_eq_some_iff.mp hs
    refine h.same ?_ (funext hp.scope_of) rfl rfl rfl
    funext y
    rw [state_of_modify hn rfl y]
    split
    · simp_all [state_of_node hn]
    · rfl

theorem Work.inv {g : Ghost} (h : Inv ⟨m, g⟩) (w : Work k m m') : Inv ⟨m', g⟩ := by
  have hp := w.placed
  have hr := w.reads h.reads
  rw [w.shape] at hp hr ⊢
  exact h.same hp rfl rfl rfl rfl rfl hr (.refl _)

end Proto
