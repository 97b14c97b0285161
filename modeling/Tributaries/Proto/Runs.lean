import Tributaries.Proto.PreserveTree

/-! # The invariants along a trace

  The rename halves, and with them every effect, keep the invariants;
  so they hold at every moment of every trace.
-/

open Std Collections SlotForest Forest

namespace Proto

variable {m m' : Monitor} {g g' : Ghost}

/-! ### Rename halves -/

section Halves

theorem scope_live {x : WatchId} (h : m.nodes[x]? ≠ none) : ∃ s, m.scope_of x = some s := by
  obtain ⟨n, hn⟩ := Option.ne_none_iff_exists'.mp h
  exact ⟨_, scope_of_node hn⟩

theorem Holds.held_live {transit : Option WatchId} {spare : List WatchId} {x : WatchId}
    (h : Holds m transit spare) (hx : x ∈ m.held_sources) : ∃ s, m.scope_of x = some s := by
  obtain ⟨⟨p, name⟩, hs, -⟩ := h.held_off x hx
  obtain ⟨n, hn, -⟩ := Monitor.slot_of_eq_some.mp hs
  exact ⟨_, scope_of_node hn⟩

/-- The source of a parked half is dead or has a slot. -/
theorem Holds.half_off {transit : Option WatchId} {spare : List WatchId} {x : WatchId}
    {k : PendingKey} {half : PendingMove} (h : Holds m transit spare)
    (hk : m.pending_moves[k]? = some half) (hx : half.held = some x) :
    m.nodes[x]? = none ∨ ∃ slot, m.slot_of x = some slot := by
  by_cases hd : m.nodes[x]? = none
  · exact .inl hd
  · obtain ⟨s, hs⟩ := scope_live hd
    obtain ⟨slot, hslot, -⟩ := h.held_off x (h.half_held k half x s hk hx hs).1
    exact .inr ⟨slot, hslot⟩

theorem Holds.park {transit : Option WatchId} {spare : List WatchId} {scope : ScopeId}
    (cookie : MoveCookie) {pending : PendingMove} (h : Holds m transit spare)
    (ht : transit = pending.held) (hk : pending.scope = scope)
    (hs : ∀ src, pending.held = some src → src ∈ m.held_sources ∧ m.scope_of src = some scope) :
    Holds { m with pending_moves := m.pending_moves.insert (scope, cookie) pending }
      ((m.pending_moves[(scope, cookie)]?).bind (·.held)) spare where
  half_scope s ck half hf := by
    rw [get_insert] at hf
    split at hf
    · rename_i he
      cases hf
      cases he
      exact hk
    · exact h.half_scope s ck half hf
  half_minted k half x hf hx := by
    rw [get_insert] at hf
    split at hf
    · cases hf
      exact h.transit_minted x (ht.trans hx)
    · exact h.half_minted k half x hf hx
  half_held k half x s hf hx hsx := by
    rw [get_insert] at hf
    split at hf
    · rename_i he
      cases hf
      subst he
      obtain ⟨hm, hsc⟩ := hs x hx
      refine ⟨hm, Option.some.inj (hsx.symm.trans hsc), fun hd => ?_⟩
      obtain ⟨old, hold, hox⟩ := Option.bind_eq_some_iff.mp hd
      exact (h.half_held _ old x s hold hox hsx).2.2 (ht.trans hx)
    · rename_i hne
      obtain ⟨h₁, h₂, -⟩ := h.half_held k half x s hf hx hsx
      refine ⟨h₁, h₂, fun hd => hne ?_⟩
      obtain ⟨old, hold, hox⟩ := Option.bind_eq_some_iff.mp hd
      exact h.half_unique _ k old half x s hold hf hox hx hsx
  half_unique k k' half half' x s hf hf' hx hx' hsx := by
    rw [get_insert] at hf hf'
    -- a live source in transit is held by no parked half
    have key : ∀ (k : PendingKey) (half : PendingMove), m.pending_moves[k]? = some half →
        half.held = some x → pending.held ≠ some x := fun k half h₁ h₂ h₃ =>
      (h.half_held k half x s h₁ h₂ hsx).2.2 (ht.trans h₃)
    split at hf
    · cases hf
      split at hf'
      · simp_all
      · exact absurd hx (key k' half' hf' hx')
    · split at hf'
      · cases hf'
        exact absurd hx' (key k half hf hx)
      · exact h.half_unique k k' half half' x s hf hf' hx hx' hsx
  held_off := h.held_off
  held_half x hx := by
    rcases h.held_half x hx with h₁ | ⟨k, half, h₁, h₂⟩
    · exact .inr ⟨(scope, cookie), pending, by simp, ht.symm.trans h₁⟩
    · by_cases he : (scope, cookie) = k
      · subst he
        left
        rw [h₁]
        exact h₂
      · exact .inr ⟨k, half, by rw [get_insert, if_neg he]; exact h₁, h₂⟩
  transit_minted x hx := by
    obtain ⟨old, hold, hox⟩ := Option.bind_eq_some_iff.mp hx
    exact h.half_minted _ old x hold hox
  transit_off x hx := by
    obtain ⟨old, hold, hox⟩ := Option.bind_eq_some_iff.mp hx
    exact h.half_off hold hox
  slotted x slot hx := by
    rcases h.slotted x slot hx with h₁ | h₁ | h₁
    · exact .inl h₁
    · exact .inl (hs x (ht.symm.trans h₁)).1
    · exact .inr (.inr h₁)

theorem Holds.take {spare : List WatchId} {key : PendingKey} {half : PendingMove}
    (h : Holds m none spare) (hf : m.pending_moves[key]? = some half) :
    Holds { m with pending_moves := m.pending_moves.erase key } half.held spare where
  half_scope s ck half' hf' := by
    rw [get_erase] at hf'
    split at hf'
    · cases hf'
    · exact h.half_scope s ck half' hf'
  half_minted k half' x hf' hx := by
    rw [get_erase] at hf'
    split at hf'
    · cases hf'
    · exact h.half_minted k half' x hf' hx
  half_held k half' x s hf' hx hsx := by
    rw [get_erase] at hf'
    split at hf'
    · cases hf'
    · rename_i hne
      obtain ⟨h₁, h₂, -⟩ := h.half_held k half' x s hf' hx hsx
      exact ⟨h₁, h₂, fun hd => hne (h.half_unique key k half half' x s hf hf' hd hx hsx)⟩
  half_unique k k' half₁ half₂ x s hf₁ hf₂ hx₁ hx₂ hsx := by
    rw [get_erase] at hf₁ hf₂
    split at hf₁
    · cases hf₁
    · split at hf₂
      · cases hf₂
      · exact h.half_unique k k' half₁ half₂ x s hf₁ hf₂ hx₁ hx₂ hsx
  held_off := h.held_off
  held_half x hx := by
    rcases h.held_half x hx with h₁ | ⟨k, half', h₁, h₂⟩
    · cases h₁
    · by_cases he : key = k
      · subst he
        obtain rfl := Option.some.inj (hf.symm.trans h₁)
        exact .inl h₂
      · exact .inr ⟨k, half', by rw [get_erase, if_neg he]; exact h₁, h₂⟩
  transit_minted x hx := h.half_minted key half x hf hx
  transit_off x hx := h.half_off hf hx
  slotted x slot hx := by
    rcases h.slotted x slot hx with h₁ | h₁ | h₁
    · exact .inl h₁
    · cases h₁
    · exact .inr (.inr h₁)

theorem Holds.release {spare : List WatchId} {src : WatchId} (h : Holds m (some src) spare) :
    Holds { m with held_sources := m.held_sources.erase src } (some src) spare where
  half_scope := h.half_scope
  half_minted := h.half_minted
  half_held k half x s hf hx hsx := by
    obtain ⟨h₁, h₂, h₃⟩ := h.half_held k half x s hf hx hsx
    exact ⟨mem_erase_iff.mpr ⟨fun he => h₃ (congrArg some he), h₁⟩, h₂, h₃⟩
  half_unique := h.half_unique
  held_off x hx := h.held_off x (mem_erase_iff.mp hx).2
  held_half x hx := h.held_half x (mem_erase_iff.mp hx).2
  transit_minted := h.transit_minted
  transit_off := h.transit_off
  slotted x slot hx := by
    rcases h.slotted x slot hx with h₁ | h₁
    · by_cases he : src = x
      · exact .inr (.inl (congrArg some he))
      · exact .inl (mem_erase_iff.mpr ⟨he, h₁⟩)
    · exact .inr h₁

theorem Holds.remark {transit : Option WatchId} {spare : List WatchId} {key : PendingKey}
    {f : PendingMove → PendingMove} (h : Holds m transit spare) (hf : Remarks f) :
    Holds (m.modify_half key f) transit spare := by
  have back : ∀ (k : PendingKey) (half : PendingMove),
      (m.modify_half key f).pending_moves[k]? = some half →
      ∃ old, m.pending_moves[k]? = some old ∧ half.held = old.held ∧ half.scope = old.scope := by
    intro k half hk
    rw [Monitor.modify_half, get_modify] at hk
    split at hk
    · obtain ⟨old, hold, rfl⟩ := Option.map_eq_some_iff.mp hk
      exact ⟨old, hold, hf.held old, hf.scope old⟩
    · exact ⟨half, hk, rfl, rfl⟩
  refine ⟨?_, ?_, ?_, ?_, h.held_off, ?_, h.transit_minted, h.transit_off, h.slotted⟩
  · intro s ck half hk
    obtain ⟨old, hold, -, hsc⟩ := back _ half hk
    exact hsc.trans (h.half_scope s ck old hold)
  · intro k half x hk hx
    obtain ⟨old, hold, hh, -⟩ := back k half hk
    exact h.half_minted k old x hold (hh.symm.trans hx)
  · intro k half x s hk hx hsx
    obtain ⟨old, hold, hh, -⟩ := back k half hk
    exact h.half_held k old x s hold (hh.symm.trans hx) hsx
  · intro k k' half half' x s hk hk' hx hx' hsx
    obtain ⟨old, hold, hh, -⟩ := back k half hk
    obtain ⟨old', hold', hh', -⟩ := back k' half' hk'
    exact h.half_unique k k' old old' x s hold hold' (hh.symm.trans hx) (hh'.symm.trans hx') hsx
  · intro x hx
    rcases h.held_half x hx with h₁ | ⟨k, half, h₁, h₂⟩
    · exact .inl h₁
    · refine .inr ?_
      by_cases he : key = k
      · refine ⟨k, f half, ?_, (hf.held half).trans h₂⟩
        rw [Monitor.modify_half, get_modify, if_pos he, h₁]
        rfl
      · exact ⟨k, half, by rw [Monitor.modify_half, get_modify, if_neg he]; exact h₁, h₂⟩

theorem Holds.purge {transit : Option WatchId} {spare : List WatchId} {scope : ScopeId}
    (h : Holds m transit spare) (hs : ∀ src ∈ m.held_sources, m.scope_of src ≠ some scope) :
    Holds (m.purge_scope_pending_moves scope) transit spare := by
  have back : ∀ (k : PendingKey) (half : PendingMove),
      (m.purge_scope_pending_moves scope).pending_moves[k]? = some half →
      m.pending_moves[k]? = some half := by
    intro k half hk
    rw [Monitor.purge_scope_pending_moves, get_filter] at hk
    exact (Option.filter_eq_some_iff.mp hk).1
  refine ⟨?_, ?_, ?_, ?_, h.held_off, ?_, h.transit_minted, h.transit_off, h.slotted⟩
  · exact fun s ck half hk => h.half_scope s ck half (back _ half hk)
  · exact fun k half x hk => h.half_minted k half x (back k half hk)
  · exact fun k half x s hk => h.half_held k half x s (back k half hk)
  · exact fun k k' half half' x s hk hk' =>
      h.half_unique k k' half half' x s (back k half hk) (back k' half' hk')
  · intro x hx
    rcases h.held_half x hx with h₁ | ⟨k, half, h₁, h₂⟩
    · exact .inl h₁
    · refine .inr ⟨k, half, ?_, h₂⟩
      obtain ⟨s, hsx⟩ := h.held_live hx
      have hk := (h.half_held k half x s h₁ h₂ hsx).2.1
      have hne : k.1 ≠ scope := fun he => hs x hx (hsx.trans (by rw [hk, he]))
      rw [Monitor.purge_scope_pending_moves, get_filter]
      exact Option.filter_eq_some_iff.mpr ⟨h₁, by simpa using hne⟩

theorem Holds.land {spare : List WatchId} {src : WatchId} (h : Holds m (some src) spare)
    (hl : m.nodes[src]? = none ∨ Landed m g src) : Holds m none spare where
  half_scope := h.half_scope
  half_minted := h.half_minted
  half_held k half x s hf hx hsx := by
    obtain ⟨h₁, h₂, -⟩ := h.half_held k half x s hf hx hsx
    exact ⟨h₁, h₂, by simp⟩
  half_unique := h.half_unique
  held_off := h.held_off
  held_half x hx := by
    rcases h.held_half x hx with h₁ | h₁
    · obtain rfl := Option.some.inj h₁
      rcases hl with hd | hl
      · obtain ⟨s, hs⟩ := h.held_live hx
        rw [scope_dead hd] at hs
        cases hs
      · exact absurd hx hl.released
    · exact .inr h₁
  transit_minted x hx := by cases hx
  transit_off x hx := by cases hx
  slotted x slot hx := by
    rcases h.slotted x slot hx with h₁ | h₁ | h₁
    · exact .inl h₁
    · obtain rfl := Option.some.inj h₁
      rcases hl with hd | hl
      · rw [slot_dead hd] at hx
        cases hx
      · exact .inr (.inr (hl.slotted slot hx))
    · exact .inr (.inr h₁)

end Halves

/-! ### Effects on the stores -/

/-- An effect that leaves the tree, the reads and the stats alone. -/
theorem Inv.beside (h : Inv ⟨m, g⟩) (hp : Placed m m') (hd : g'.doomed = g.doomed)
    (hsp : g'.spare = g.spare) (hh : Holds m' g'.transit g.spare)
    (hst : m'.state_of = m.state_of) (hr : m'.req_ids = m.req_ids)
    (he : m'.pending_enumerate = m.pending_enumerate) (hl : m'.latent_cold = m.latent_cold)
    (hs : m'.pending_stat = m.pending_stat) : Inv ⟨m', g'⟩ where
  tree := by
    rw [hp.shape, hd]
    exact h.tree
  minted x hx := by
    rw [hp.watch_ids]
    exact h.minted x fun hn => hx (hp.dead_iff.mpr hn)
  spare := by
    rw [hsp]
    exact h.spare.placed hp
  holds := by
    rw [hsp]
    exact hh
  reads := h.reads.same hst (funext hp.scope_of) hr he hl
  stats := h.stats.placed hp (hs ▸ .refl _)

/-- An effect that writes none of the stores the invariants speak of. -/
theorem Inv.aside (h : Inv ⟨m, g⟩) (hp : Placed m m') (hd : g'.doomed = g.doomed)
    (ht : g'.transit = g.transit) (hsp : g'.spare = g.spare)
    (hst : m'.state_of = m.state_of) (hm : m'.pending_moves = m.pending_moves)
    (hh : m'.held_sources = m.held_sources) (hr : m'.req_ids = m.req_ids)
    (he : m'.pending_enumerate = m.pending_enumerate) (hl : m'.latent_cold = m.latent_cold)
    (hs : m'.pending_stat = m.pending_stat) : Inv ⟨m', g'⟩ :=
  h.beside hp hd hsp (ht ▸ h.holds.placed hp hm hh) hst hr he hl hs

/-- A node loses or changes its state, and no longer waits for a read. -/
theorem inv_leave {x : WatchId} {node : WatchNode} (st : NodeState) (h : Inv ⟨m, g⟩)
    (hn : m.nodes[x]? = some node) (hst : st.request = none) (hp : Placed m m')
    (hd : g'.doomed = g.doomed) (ht : g'.transit = g.transit) (hsp : g'.spare = g.spare)
    (hs : ∀ y, m'.state_of y = if y = x then some st else m.state_of y)
    (hm : m'.pending_moves = m.pending_moves) (hh : m'.held_sources = m.held_sources)
    (hr : m'.req_ids = m.req_ids)
    (he : m'.pending_enumerate = (m.forget_state node.state).pending_enumerate)
    (hl : m'.latent_cold = (m.forget_state node.state).latent_cold)
    (hq : m'.pending_stat = m.pending_stat) : Inv ⟨m', g'⟩ :=
  h.same hp hd ht hsp hm hh
    (h.reads.leave (some st) hn (by rintro s ⟨⟩; exact hst) hs (fun y _ => hp.scope_of y)
      he hl hr) (hq ▸ .refl _)

theorem state_of_same {id : WatchId} {f : WatchNode → WatchNode}
    (h : m'.nodes = m.nodes.modify id f) (hf : ∀ n, (f n).state = n.state) :
    m'.state_of = m.state_of := by
  funext x
  simp only [Monitor.state_of, h, get_modify]
  split
  · rw [Option.map_map]
    congr 1
    exact funext hf
  · rfl

/-! ### Effects on one node's state -/

theorem inv_ask {parent : WatchId} {scope : ScopeId} {name : Segment} (h : Inv ⟨m, g⟩)
    (ha : Anchored ⟨m, g⟩ parent scope) : Inv ⟨m.queue_stat parent scope name, g⟩ := by
  obtain ⟨reqs, slots, stat, losses, actions, hreq, -, hstat, he⟩ :=
    queue_stat_eq (m := m) parent scope name
  rw [he]
  have hle : ∀ req : ReqId, req < m.req_ids.next → req < reqs.next := by
    rcases hreq with rfl | rfl
    · exact fun _ hlt => hlt
    · exact fun _ hlt => Nat.lt_succ_of_lt hlt
  refine ⟨h.tree, h.minted, ⟨h.spare.minted, h.spare.dead⟩, { h.holds with },
    ⟨h.reads.reading, fun req x hx => ?_, h.reads.latent⟩, fun req slot' hq => ?_⟩
  · obtain ⟨hlt, hst⟩ := h.reads.waiting req x hx
    exact ⟨hle req hlt, hst⟩
  · rcases hstat req slot' hq with ⟨slot, hs, hpar, hsc⟩ | ⟨hlive, hpar, hsc⟩
    · rw [hpar, hsc]
      exact h.stats req slot hs
    · obtain ⟨n, hn⟩ := Option.ne_none_iff_exists'.mp hlive
      rw [hpar, hsc]
      exact (scope_of_node hn).trans (congrArg some (ha.scope n hn))

theorem inv_ack {id : WatchId} {rearm reprove : Bool} {answer : Option Answer} (h : Inv ⟨m, g⟩)
    (hs : m.state_of id = some (.arming rearm reprove)) :
    Inv ⟨m.set_state id .live, { g with answer := answer }⟩ := by
  obtain ⟨node, hn, hst⟩ := Option.map_eq_some_iff.mp hs
  have hp := set_state_placed (m := m) id .live
  obtain ⟨_, _, _, he⟩ := m.set_state_shape id .live
  refine inv_leave .live h hn rfl hp rfl rfl rfl
    (fun y => state_of_modify hn (congrArg Monitor.nodes he) y) ?_ ?_ ?_ ?_ ?_ ?_
  · rw [he]
  · rw [he]
  · rw [he]
  · rw [he, hst]
    rfl
  · rw [he, hst]
    rfl
  · rw [he]

theorem inv_finish {req : ReqId} {dir : WatchId} {kind : EnumKind} {attempts : Nat} {dirty : Bool}
    {answer : Option Answer} (h : Inv ⟨m, g⟩)
    (hs : m.state_of dir = some (.enumerating req kind attempts dirty)) :
    Inv ⟨m.finish_read req dir, { g with answer := answer }⟩ := by
  obtain ⟨node, hn, hst⟩ := Option.map_eq_some_iff.mp hs
  have hf : Placed m (m.forget_read req) := .of_eq rfl rfl rfl rfl
  have hp : Placed m (m.finish_read req dir) := hf.trans (set_state_placed dir .live)
  obtain ⟨_, _, _, he⟩ := (m.forget_read req).set_state_shape dir .live
  have he : m.finish_read req dir = _ := he
  refine inv_leave .live h hn rfl hp rfl rfl rfl
    (fun y => state_of_modify hn (congrArg Monitor.nodes he) y) ?_ ?_ ?_ ?_ ?_ ?_
  · rw [he]
    rfl
  · rw [he]
    rfl
  · rw [he]
    rfl
  · rw [he, hst]
    rfl
  · rw [he, hst]
    rfl
  · rw [he]
    rfl

theorem inv_reset {root : WatchId} {owed : Option WatchId} (h : Inv ⟨m, g⟩) :
    Inv ⟨m.reset_root root, { g with owed := owed }⟩ := by
  cases hn : m.nodes[root]? with
  | none =>
    rw [Monitor.reset_root_dead hn]
    exact h.aside (.of_eq rfl rfl rfl rfl) rfl rfl rfl rfl rfl rfl rfl rfl rfl rfl
  | some node =>
    obtain ⟨bridge, pending, work, he⟩ := Monitor.reset_root_eq hn
    refine inv_leave (.arming true false) h hn rfl ?_ rfl rfl rfl ?_ ?_ ?_ ?_ ?_ ?_ ?_
    · rw [he]
      exact .of_modify rfl rfl rfl rfl fun _ => rfl
    · intro y
      exact state_of_modify hn (congrArg Monitor.nodes he) y
    all_goals rw [he]

/-! ### Effects on the walk -/

theorem inv_open {root : WatchId} {walk : Walk} (h : Inv ⟨m, g⟩) (hw : g.walk = none)
    (_ : walk.stack = [root]) : Inv ⟨m, { g with walk := some walk }⟩ :=
  { h with tree := (h.sound hw).mono fun _ hx => hx.elim }

theorem inv_skip {walk walk' : Walk} {id : WatchId} (h : Inv ⟨m, g⟩) (hw : g.walk = some walk)
    (hs : walk.stack = id :: walk'.stack) (hn : m.nodes[id]? = none) :
    Inv ⟨m, { g with walk := some walk' }⟩ := by
  refine { h with tree := h.tree.mono fun x hx hl => ?_ }
  simp only [Ghost.doomed, hw, hs, List.mem_cons, Set.mem_ofPred_eq] at hx ⊢
  refine hx.resolve_left ?_
  rintro rfl
  rw [Monitor.place_none.mpr hn] at hl
  cases hl

theorem inv_close {walk : Walk} (h : Inv ⟨m, g⟩) (hw : g.walk = some walk)
    (hs : walk.stack = []) : Inv ⟨m, { g with walk := none }⟩ := by
  refine { h with tree := h.tree.mono fun x hx _ => ?_ }
  simp [Ghost.doomed, hw, hs] at hx

/-- The cover a walk leaves behind is written to the bridge or to the book. -/
theorem discharge_cases (walk : Walk) :
    (m.discharge walk).1 = m ∨ (∃ m₁, Deliver m m₁ ∧ Deliver m₁ (m.discharge walk).1) ∨
      Ledger m (m.discharge walk).1 := by
  have raise : ∀ (n : Monitor) (scope : ScopeId),
      (n.bridge_saw_rescan scope = n ∨ Deliver n (n.bridge_saw_rescan scope)) ∧
      (n.bridge_fresh_rearm scope = n ∨ Deliver n (n.bridge_fresh_rearm scope)) := by
    intro n scope
    unfold Monitor.bridge_saw_rescan Monitor.bridge_fresh_rearm
    split
    · exact ⟨.inr (.raise fun b => by simp), .inr (.raise fun b => by simp)⟩
    · exact ⟨.inl rfl, .inl rfl⟩
  have stay : ∀ (n : Monitor) (scope : ScopeId), n.scope_descends scope = false →
      n.bridge_saw_rescan scope = n ∧ n.bridge_fresh_rearm scope = n := by
    intro n scope hd
    simp [Monitor.bridge_saw_rescan, Monitor.bridge_fresh_rearm, hd]
  unfold Monitor.discharge
  split
  · split
    · split
      · rename_i scope _
        cases hd : m.scope_descends scope with
        | false =>
          obtain ⟨h₁, h₂⟩ := stay m scope hd
          exact .inl (by rw [h₁, h₂])
        | true =>
          refine .inr (.inl ⟨m.bridge_saw_rescan scope, ?_, ?_⟩)
          · unfold Monitor.bridge_saw_rescan
            rw [if_pos hd]
            exact .raise fun b => by simp
          · have hd' : (m.bridge_saw_rescan scope).scope_descends scope = true := by
              rw [← hd]
              obtain ⟨b, hb⟩ := m.saw_rescan_shape scope
              rw [hb]
              rfl
            dsimp only
            unfold Monitor.bridge_fresh_rearm
            rw [if_pos hd']
            exact .raise fun b => by simp
      · exact .inl rfl
    · split
      · exact .inr (.inr .record_slot)
      · exact .inl rfl
    all_goals exact .inl rfl
  · exact .inl rfl

/-! ### Every effect -/

theorem Edit.inv {c c' : Moment} (h : Inv c) (e : Edit c c') : Inv c' := by
  cases e with
  | register hw hr => exact inv_register h hw hr
  | plant hw hp ha hs => exact inv_plant h hw hp ha hs
  | reserve =>
    refine { h with
      minted := fun x hx => Nat.lt_succ_of_lt (h.minted x hx)
      spare := ⟨fun x hx => ?_, fun x hx => ?_⟩
      tree := h.tree
      reads := h.reads.same rfl rfl rfl rfl rfl
      stats := h.stats
      holds := { h.holds with half_minted := fun k half x hk hx => ?_, transit_minted := ?_ } }
    · rcases List.mem_cons.mp hx with rfl | hx
      · exact ProtoId.lt_succ _
      · exact Nat.lt_succ_of_lt (h.spare.minted x hx)
    · rcases List.mem_cons.mp hx with rfl | hx
      · exact h.next_dead
      · exact h.spare.dead x hx
    · obtain ⟨hlt, hns⟩ := h.holds.half_minted k half x hk hx
      exact ⟨Nat.lt_succ_of_lt hlt,
        List.not_mem_cons_of_ne_of_not_mem (fun he => Nat.lt_irrefl _ (he ▸ hlt)) hns⟩
    · intro x hx
      obtain ⟨hlt, hns⟩ := h.holds.transit_minted x hx
      exact ⟨Nat.lt_succ_of_lt hlt,
        List.not_mem_cons_of_ne_of_not_mem (fun he => Nat.lt_irrefl _ (he ▸ hlt)) hns⟩
  | graft hw _ hr hs _ => exact inv_graft h hw hr hs
  | hold _ ht hp hs _ => exact inv_hold h ht hp hs
  | rekey hw ht hh hc hp hd hoff hs _ => exact inv_rekey h hw ht hh hc hp hd hoff hs
  | uproot hw hr => exact inv_uproot h hw hr rfl
  | remove hw hs hn => exact inv_remove h hw hs hn rfl

theorem Marking.inv {c c' : Moment} (h : Inv c) (e : Marking c c') : Inv c' := by
  cases e with
  | record_marker =>
    exact h.aside (.of_eq rfl rfl rfl rfl) rfl rfl rfl rfl rfl rfl rfl rfl rfl rfl
  | @stage m _ dir scope =>
    have he : m.stage_adoption dir scope =
        { m with
          adoption_staging_seq := (m.stage_adoption dir scope).adoption_staging_seq
          staged_adoptions := (m.stage_adoption dir scope).staged_adoptions } := by
      unfold Monitor.stage_adoption
      split <;> rfl
    rw [he]
    exact h.aside (.of_eq rfl rfl rfl rfl) rfl rfl rfl rfl rfl rfl rfl rfl rfl rfl
  | @take_marker m _ parent scope =>
    rw [(m.take_adoption_marker_eq parent scope).1]
    exact h.aside (.of_eq rfl rfl rfl rfl) rfl rfl rfl rfl rfl rfl rfl rfl rfl rfl
  | unstage => exact h.aside (.of_eq rfl rfl rfl rfl) rfl rfl rfl rfl rfl rfl rfl rfl rfl rfl

theorem Effect.inv {c c' : Moment} (h : Inv c) (e : Effect c c') : Inv c' := by
  cases e with
  | edit e => exact e.inv h
  | mark e => exact e.inv h
  | deliver d => exact d.inv h
  | ledger l => exact l.inv h
  | work w => exact w.inv h
  | ask ha => exact inv_ask h ha
  | ack _ _ _ _ hs => exact inv_ack h hs
  | finish _ hs _ => exact inv_finish h hs
  | reset => exact inv_reset h
  | adopt =>
    exact h.aside (.of_modify rfl rfl rfl rfl fun _ => rfl) rfl rfl rfl
      (state_of_same rfl fun _ => rfl) rfl rfl rfl rfl rfl rfl
  | rest => exact { h with }
  | respond => exact { h with }
  | identify =>
    exact h.aside (.of_modify rfl rfl rfl rfl fun _ => rfl) rfl rfl rfl
      (state_of_same rfl fun _ => rfl) rfl rfl rfl rfl rfl rfl
  | land ht hl =>
    refine { h with holds := Holds.land (g := _) ?_ hl }
    exact ht ▸ h.holds
  | move_root =>
    exact h.aside (.of_modify rfl rfl rfl rfl fun _ => rfl) rfl rfl rfl
      (state_of_same rfl fun _ => rfl) rfl rfl rfl rfl rfl rfl
  | open_drop hw => exact inv_open h hw rfl
  | skip_dead hw hs hn => exact inv_skip h hw hs hn
  | @close_drop m g walk hw hs =>
    have h' := inv_close h hw hs
    rcases discharge_cases (m := m) walk with he | ⟨m₁, d₁, d₂⟩ | l
    · rwa [he]
    · exact d₂.inv (d₁.inv h')
    · exact l.inv h'
  | @park m g scope cookie pending ht hk hs =>
    have hh := h.holds.park cookie ht hk hs
    obtain ⟨_, he⟩ := m.park_shape scope cookie pending
    rw [he]
    exact h.beside (.of_eq rfl rfl rfl rfl) rfl rfl { hh with } rfl rfl rfl rfl rfl
  | take ht hf =>
    exact h.beside (.of_eq rfl rfl rfl rfl) rfl rfl { (ht ▸ h.holds).take hf with } rfl rfl rfl rfl
      rfl
  | @release m g scope src ht _ =>
    have hh := (ht ▸ h.holds).release
    obtain ⟨held, dirtied, he⟩ := m.release_hold_shape scope src
    rw [he]
    refine h.beside (.of_eq rfl rfl rfl rfl) rfl rfl ?_ rfl rfl rfl rfl rfl
    rw [ht]
    exact { hh with }
  | remark hf =>
    exact h.beside (.of_eq rfl rfl rfl rfl) rfl rfl (h.holds.remark hf) rfl rfl rfl rfl rfl
  | purge hs =>
    exact h.beside (.of_eq rfl rfl rfl rfl) rfl rfl (h.holds.purge hs) rfl rfl rfl rfl rfl
  | @reprofile m _ scope caps =>
    obtain ⟨_, _, he⟩ := m.reprofile_shape scope caps
    rw [he]
    exact h.aside (.of_eq rfl rfl rfl rfl) rfl rfl rfl rfl rfl rfl rfl rfl rfl rfl
  | forget_scope => exact h.aside (.of_eq rfl rfl rfl rfl) rfl rfl rfl rfl rfl rfl rfl rfl rfl rfl
  | forget_registration =>
    exact h.aside (.of_eq rfl rfl rfl rfl) rfl rfl rfl rfl rfl rfl rfl rfl rfl rfl
  | forget_book => exact h.aside (.of_eq rfl rfl rfl rfl) rfl rfl rfl rfl rfl rfl rfl rfl rfl rfl
  | skip_action => exact h.aside (.of_eq rfl rfl rfl rfl) rfl rfl rfl rfl rfl rfl rfl rfl rfl rfl
  | @dispatch m _ action rest =>
    have he : ∃ nodes, Monitor.stamp_dispatch { m with actions := rest } action =
        { m with actions := rest, nodes := nodes } ∧
        (nodes = m.nodes ∨ ∃ (id : WatchId) (p : Nat),
          nodes = m.nodes.modify id fun n => { n with placement := p }) := by
      unfold Monitor.stamp_dispatch
      split
      · exact ⟨_, rfl, .inl rfl⟩
      · exact ⟨_, rfl, .inr ⟨_, _, rfl⟩⟩
    obtain ⟨nodes, he, rfl | ⟨id, p, rfl⟩⟩ := he
    · rw [he]
      exact h.aside (.of_eq rfl rfl rfl rfl) rfl rfl rfl rfl rfl rfl rfl rfl rfl rfl
    · rw [he]
      exact h.aside (.of_modify rfl rfl rfl rfl fun _ => rfl) rfl rfl rfl
        (state_of_same rfl fun _ => rfl) rfl rfl rfl rfl rfl rfl
  | poll_event => exact h.aside (.of_eq rfl rfl rfl rfl) rfl rfl rfl rfl rfl rfl rfl rfl rfl rfl

theorem Trace.inv {c c' : Moment} (h : Inv c) (t : Trace c c') : Inv c' := by
  induction t with
  | refl => exact h
  | tail _ e ih => exact e.inv ih

/-! ### What a trace leaves alone -/

theorem dispatch_placed (action : Action) : Placed m (m.stamp_dispatch action) := by
  unfold Monitor.stamp_dispatch
  split
  · exact .refl m
  · exact .of_modify rfl rfl rfl rfl fun _ => rfl

theorem Marking.placed {c c' : Moment} (e : Marking c c') : Placed c.m c'.m := by
  cases e with
  | record_marker => exact .of_eq rfl rfl rfl rfl
  | @stage m g dir scope =>
    unfold Monitor.stage_adoption
    split <;> exact .of_eq rfl rfl rfl rfl
  | @take_marker m g parent scope =>
    rw [(m.take_adoption_marker_eq parent scope).1]
    exact .of_eq rfl rfl rfl rfl
  | unstage => exact .of_eq rfl rfl rfl rfl

theorem Marking.spare {c c' : Moment} (e : Marking c c') : c'.g.spare = c.g.spare := by
  cases e <;> rfl

/-- An effect that is no edit leaves every node in its place. -/
theorem Effect.still {c c' : Moment} (e : Effect c c') :
    Edit c c' ∨ (Placed c.m c'.m ∧ c'.g.spare = c.g.spare) := by
  cases e with
  | edit e => exact .inl e
  | mark e => exact .inr ⟨e.placed, e.spare⟩
  | deliver d => exact .inr ⟨d.placed, rfl⟩
  | ledger l => exact .inr ⟨l.placed, rfl⟩
  | work w => exact .inr ⟨w.placed, rfl⟩
  | @ask m g parent scope name =>
    obtain ⟨_, _, _, _, _, -, -, -, he⟩ := queue_stat_eq (m := m) parent scope name
    exact .inr ⟨he ▸ .of_eq rfl rfl rfl rfl, rfl⟩
  | ack => exact .inr ⟨set_state_placed _ _, rfl⟩
  | @finish m g req dir =>
    have hf : Placed m (m.forget_read req) := .of_eq rfl rfl rfl rfl
    exact .inr ⟨hf.trans (set_state_placed dir .live), rfl⟩
  | @reset m g root =>
    obtain ⟨_, _, _, _, _, he⟩ := m.reset_root_shape root
    rw [he]
    exact .inr ⟨.of_modify rfl rfl rfl rfl fun _ => rfl, rfl⟩
  | adopt => exact .inr ⟨.of_modify rfl rfl rfl rfl fun _ => rfl, rfl⟩
  | identify => exact .inr ⟨.of_modify rfl rfl rfl rfl fun _ => rfl, rfl⟩
  | move_root => exact .inr ⟨.of_modify rfl rfl rfl rfl fun _ => rfl, rfl⟩
  | @close_drop m g walk =>
    refine .inr ⟨?_, rfl⟩
    rcases discharge_cases (m := m) walk with he | ⟨_, d₁, d₂⟩ | l
    · exact he.symm ▸ .refl _
    · exact d₁.placed.trans d₂.placed
    · exact l.placed
  | @park m g scope cookie pending =>
    obtain ⟨_, he⟩ := m.park_shape scope cookie pending
    rw [he]
    exact .inr ⟨.of_eq rfl rfl rfl rfl, rfl⟩
  | @release m g scope src =>
    obtain ⟨_, _, he⟩ := m.release_hold_shape scope src
    rw [he]
    exact .inr ⟨.of_eq rfl rfl rfl rfl, rfl⟩
  | @reprofile m g scope caps =>
    obtain ⟨_, _, he⟩ := m.reprofile_shape scope caps
    rw [he]
    exact .inr ⟨.of_eq rfl rfl rfl rfl, rfl⟩
  | @dispatch m g action rest =>
    have hf : Placed m { m with actions := rest } := .of_eq rfl rfl rfl rfl
    exact .inr ⟨hf.trans (dispatch_placed action), rfl⟩
  | rest => exact .inr ⟨.refl _, rfl⟩
  | respond => exact .inr ⟨.refl _, rfl⟩
  | land => exact .inr ⟨.refl _, rfl⟩
  | open_drop => exact .inr ⟨.refl _, rfl⟩
  | skip_dead => exact .inr ⟨.refl _, rfl⟩
  | take => exact .inr ⟨.of_eq rfl rfl rfl rfl, rfl⟩
  | remark => exact .inr ⟨.of_eq rfl rfl rfl rfl, rfl⟩
  | purge => exact .inr ⟨.of_eq rfl rfl rfl rfl, rfl⟩
  | forget_scope => exact .inr ⟨.of_eq rfl rfl rfl rfl, rfl⟩
  | forget_registration => exact .inr ⟨.of_eq rfl rfl rfl rfl, rfl⟩
  | forget_book => exact .inr ⟨.of_eq rfl rfl rfl rfl, rfl⟩
  | skip_action => exact .inr ⟨.of_eq rfl rfl rfl rfl, rfl⟩
  | poll_event => exact .inr ⟨.of_eq rfl rfl rfl rfl, rfl⟩

/-- What an edit makes of one node: it was there before in the same scope, or
    it is born under an id nothing else goes by. -/
theorem Edit.scope_back {c c' : Moment} (h : Inv c) (e : Edit c c') {x : WatchId}
    {n' : WatchNode} (hn : c'.m.nodes[x]? = some n') :
    (∃ n : WatchNode, c.m.nodes[x]? = some n ∧ n.scope = n'.scope) ∨
      x = c.m.watch_ids.next ∨ x ∈ c.g.spare := by
  have of_scope : c'.m.scope_of x = c.m.scope_of x → ∃ n : WatchNode,
      c.m.nodes[x]? = some n ∧ n.scope = n'.scope := fun hs =>
    Monitor.scope_of_eq_some.mp (hs ▸ scope_of_node hn)
  cases e with
  | @register m g scope mask caps hw hr =>
    obtain ⟨node, _, _, _, -, -, -, -, -, -, -, -, he⟩ := Monitor.register_eq mask caps hr
    by_cases hx : x = m.watch_ids.next
    · exact .inr (.inl hx)
    · refine .inl (of_scope ?_)
      simp only [Monitor.scope_of, he, get_insert, if_neg (Ne.symm hx)]
  | @plant m g parent scope name is_dir identity hw hp ha hs =>
    by_cases hx : x = m.watch_ids.next
    · exact .inr (.inl hx)
    · refine .inl (of_scope ?_)
      have hpn : parent ≠ m.watch_ids.next := by
        rintro rfl
        exact Nat.lt_irrefl _ ha.minted
      rw [Monitor.scope_of_shape, Monitor.scope_of_shape, Monitor.plant_shape hpn,
        Shape.plant_place, if_neg hx]
      split
      · rw [Option.map_map]
        rfl
      · rfl
  | reserve => exact .inl ⟨n', hn, rfl⟩
  | @graft m g scope reserved last old_root hw ht hr hs hd =>
    by_cases hx : x = reserved
    · exact .inr (.inr (hx ▸ hs))
    · refine .inl (of_scope ?_)
      rw [Monitor.scope_of_shape, Monitor.scope_of_shape,
        Monitor.graft_shape (h.sound hw) (h.spare.dead _ hs) hr, Shape.graft_place, if_neg hx]
      split
      · rw [Option.map_map]
        rfl
      · rfl
  | @hold m g scope src parent name hw ht hp hs hsc =>
    have hh := h.unheld hp hs
    refine .inl (of_scope ?_)
    rw [Monitor.scope_of_shape, Monitor.scope_of_shape, Monitor.take_source_shape _ hp hh]
    rfl
  | @rekey m g child new_parent new_name scope hw =>
    refine .inl (of_scope ?_)
    rw [Monitor.scope_of_shape, Monitor.scope_of_shape, Monitor.rekey_shape _ _ _ (h.sound hw),
      Shape.rekey_place, Option.map_map]
    rfl
  | uproot => exact .inl ⟨n', hn, rfl⟩
  | @remove m g walk id stack node hw hs hid =>
    have d := remove_death walk.erased hid
    have hx : x ≠ id := by
      rintro rfl
      rw [d.dead] at hn
      cases hn
    exact .inl (of_scope (d.scope_of hx))

theorem Edit.ids {c c' : Moment} (h : Inv c) (e : Edit c c') :
    (∀ x, x < c.m.watch_ids.next → x < c'.m.watch_ids.next) ∧
      ∀ x ∈ c'.g.spare, x ∈ c.g.spare ∨ x = c.m.watch_ids.next := by
  cases e with
  | @register m g scope mask caps hw hr =>
    obtain ⟨_, _, _, _, -, -, -, -, -, -, -, -, he⟩ := Monitor.register_eq mask caps hr
    rw [he]
    exact ⟨fun x hx => Nat.lt_succ_of_lt hx, fun x hx => .inl hx⟩
  | @plant m g parent scope name is_dir identity hw hp ha hs =>
    have hpn : parent ≠ m.watch_ids.next := by
      rintro rfl
      exact Nat.lt_irrefl _ ha.minted
    rw [Monitor.plant_eq _ _ _ _ hpn]
    exact ⟨fun x hx => Nat.lt_succ_of_lt hx, fun x hx => .inl hx⟩
  | reserve =>
    refine ⟨fun x hx => Nat.lt_succ_of_lt hx, fun x hx => ?_⟩
    rcases List.mem_cons.mp hx with rfl | hx
    · exact .inr rfl
    · exact .inl hx
  | @graft m g scope reserved last old_root =>
    obtain ⟨_, he, -⟩ := m.graft_eq scope reserved last old_root
    rw [he]
    exact ⟨fun x hx => hx, fun x hx => .inl (List.mem_filter.mp hx).1⟩
  | @hold m g scope src parent name hw ht hp hs hsc =>
    have hh := h.unheld hp hs
    obtain ⟨_, _, _, -, -, he⟩ := Monitor.take_source_eq scope hp hh
    rw [he]
    exact ⟨fun x hx => hx, fun x hx => .inl hx⟩
  | @rekey m g child new_parent new_name =>
    obtain ⟨_, he⟩ := m.rekey_eq child new_parent new_name
    rw [he]
    exact ⟨fun x hx => hx, fun x hx => .inl hx⟩
  | uproot => exact ⟨fun x hx => hx, fun x hx => .inl hx⟩
  | @remove m g walk id stack node hw hs hid =>
    rw [(remove_death walk.erased hid).watch_ids]
    exact ⟨fun x hx => hx, fun x hx => .inl hx⟩

theorem Effect.anchored {c c' : Moment} {x : WatchId} {s : ScopeId} (h : Inv c)
    (ha : Anchored c x s) (e : Effect c c') : Anchored c' x s := by
  rcases e.still with e | ⟨hp, hs⟩
  · obtain ⟨hids, hspare⟩ := e.ids h
    refine ⟨hids x ha.minted, fun hx => ?_, fun n' hn' => ?_⟩
    · rcases hspare x hx with hx | rfl
      · exact ha.used hx
      · exact Nat.lt_irrefl _ ha.minted
    · rcases e.scope_back h hn' with ⟨n, hn, hsc⟩ | rfl | hx
      · exact hsc.symm.trans (ha.scope n hn)
      · exact absurd ha.minted (Nat.lt_irrefl _)
      · exact absurd hx ha.used
  · refine ⟨hp.watch_ids ▸ ha.minted, hs ▸ ha.used, fun n' hn' => ?_⟩
    obtain ⟨n, hn, hpl⟩ := hp.back hn'
    exact (congrArg Place.scope hpl).symm.trans (ha.scope n hn)

theorem Trace.anchored {c c' : Moment} {x : WatchId} {s : ScopeId} (h : Inv c)
    (ha : Anchored c x s) (t : Trace c c') : Anchored c' x s := by
  induction t with
  | refl => exact ha
  | tail t e ih => exact e.anchored (Trace.inv h t) ih

/-- A watch once minted and now dead stays dead. -/
theorem Trace.stays_dead {c c' : Moment} {x : WatchId} (h : Inv c) (hm : x < c.m.watch_ids.next)
    (hs : x ∉ c.g.spare) (hd : c.m.nodes[x]? = none) (t : Trace c c') :
    c'.m.nodes[x]? = none := by
  have ha : ∀ s, Anchored c x s := fun s => ⟨hm, hs, fun n hn => by rw [hd] at hn; cases hn⟩
  cases hn : c'.m.nodes[x]? with
  | none => rfl
  | some n =>
    -- a node born under the id would be of every scope
    have h₁ := (Trace.anchored h (ha ⟨n.scope.as_u64 + 1, Nat.succ_pos _⟩) t).scope n hn
    exact absurd (congrArg ProtoId.as_u64 h₁) (by simp)

/-- A live watch is anchored at its scope. -/
theorem Inv.anchored {c : Moment} (h : Inv c) {x : WatchId} {s : ScopeId}
    (hs : c.m.scope_of x = some s) : Anchored c x s := by
  obtain ⟨n, hn, hsc⟩ := Monitor.scope_of_eq_some.mp hs
  have hlive : c.m.nodes[x]? ≠ none := by simp [hn]
  refine ⟨h.minted x hlive, fun hx => hlive (h.spare.dead x hx), fun n' hn' => ?_⟩
  obtain rfl := Option.some.inj (hn.symm.trans hn')
  exact hsc

end Proto
