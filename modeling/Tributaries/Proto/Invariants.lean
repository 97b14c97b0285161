import Tributaries.Proto.Removal
import Tributaries.SlotForest

/-! # The invariants of a Monitor

  What holds at every moment of every run, in the middle of a call as
  well as between calls.  The watch tree is a sound slot forest; the
  clauses beside it tie the stores to the tree.  Each is relaxed by the
  ghost state where the code is in the middle of something: a drop walk
  leaves the children of a removed node without a parent until it reaches
  them, and a half that was taken from the store leaves its source held
  by nothing.
-/

open Std Collections SlotForest

namespace Proto

/-- Where a node stands in the tree. -/
def WatchNode.place (n : WatchNode) : Place WatchId Segment ScopeId :=
  ⟨n.parent, n.name, n.scope, {x | x ∈ n.children}⟩

namespace Monitor

/-- The watch tree and its indexes as a slot forest. -/
def shape (m : Monitor) : Shape WatchId Segment ScopeId where
  place x := (m.nodes[x]?).map WatchNode.place
  slot k := m.child_index[k]?
  root s := m.roots[s]?

theorem place_eq_some {m : Monitor} {x : WatchId} {q : Place WatchId Segment ScopeId} :
    m.shape.place x = some q ↔ ∃ n, m.nodes[x]? = some n ∧ n.place = q :=
  Option.map_eq_some_iff

theorem place_of {m : Monitor} {x : WatchId} {n : WatchNode} (h : m.nodes[x]? = some n) :
    m.shape.place x = some n.place := by
  simp [shape, h]

theorem place_none {m : Monitor} {x : WatchId} :
    m.shape.place x = none ↔ m.nodes[x]? = none :=
  Option.map_eq_none_iff

theorem slot_of_shape {m : Monitor} (x : WatchId) :
    m.slot_of x = (m.shape.place x).bind fun q =>
      match q.parent, q.name with
      | some parent, some name => some (parent, name)
      | _, _ => none := by
  simp only [slot_of, shape, Option.bind_map]
  rfl

theorem scope_of_shape {m : Monitor} (x : WatchId) :
    m.scope_of x = (m.shape.place x).map (·.scope) := by
  simp only [scope_of, shape, Option.map_map]
  rfl

theorem scope_of_eq_some {m : Monitor} {x : WatchId} {s : ScopeId} :
    m.scope_of x = some s ↔ ∃ n, m.nodes[x]? = some n ∧ n.scope = s :=
  Option.map_eq_some_iff

theorem slot_of_eq_some {m : Monitor} {x p : WatchId} {name : Segment} :
    m.slot_of x = some (p, name) ↔
      ∃ n, m.nodes[x]? = some n ∧ n.parent = some p ∧ n.name = some name := by
  simp only [slot_of, Option.bind_eq_some_iff]
  refine exists_congr fun n => and_congr_right fun _ => ?_
  cases n.parent <;> cases n.name <;> simp

end Monitor

/-! ### The clauses -/

/-- Reserved ids name nothing yet. -/
structure Spare (m : Monitor) (spare : List WatchId) : Prop where
  minted : ∀ x ∈ spare, x < m.watch_ids.next
  dead : ∀ x ∈ spare, m.nodes[x]? = none

/-- Every held source is the source of one parked half, and every node off
    its slot is held. -/
structure Holds (m : Monitor) (transit : Option WatchId) (spare : List WatchId) : Prop where
  half_scope : ∀ (s : ScopeId) (ck : MoveCookie) (h : PendingMove),
    m.pending_moves[(s, ck)]? = some h → h.scope = s
  half_minted : ∀ (k : PendingKey) (h : PendingMove) (x : WatchId),
    m.pending_moves[k]? = some h → h.held = some x → x < m.watch_ids.next ∧ x ∉ spare
  half_held : ∀ (k : PendingKey) (h : PendingMove) (x : WatchId) (s : ScopeId),
    m.pending_moves[k]? = some h → h.held = some x → m.scope_of x = some s →
    x ∈ m.held_sources ∧ s = k.1 ∧ transit ≠ some x
  half_unique : ∀ (k k' : PendingKey) (h h' : PendingMove) (x : WatchId) (s : ScopeId),
    m.pending_moves[k]? = some h → m.pending_moves[k']? = some h' →
    h.held = some x → h'.held = some x → m.scope_of x = some s → k = k'
  held_off : ∀ x ∈ m.held_sources, ∃ slot, m.slot_of x = some slot ∧
    m.child_index[slot]? ≠ some x
  held_half : ∀ x ∈ m.held_sources, transit = some x ∨
    ∃ (k : PendingKey) (h : PendingMove), m.pending_moves[k]? = some h ∧ h.held = some x
  transit_minted : ∀ x, transit = some x → x < m.watch_ids.next ∧ x ∉ spare
  transit_off : ∀ x, transit = some x → m.nodes[x]? = none ∨ ∃ slot, m.slot_of x = some slot
  slotted : ∀ x slot, m.slot_of x = some slot →
    x ∈ m.held_sources ∨ transit = some x ∨ m.child_index[slot]? = some x

/-- Reads in flight and the nodes that wait for them are one to one. -/
structure Reads (m : Monitor) : Prop where
  reading : ∀ x req kind attempts dirty,
    m.state_of x = some (.enumerating req kind attempts dirty) → m.pending_enumerate[req]? = some x
  waiting : ∀ (req : ReqId) (x : WatchId), m.pending_enumerate[req]? = some x →
    req < m.req_ids.next ∧
      ∃ kind attempts dirty, m.state_of x = some (.enumerating req kind attempts dirty)
  latent : ∀ (req : ReqId) (s : ScopeId), m.latent_cold[req]? = some s →
    ∃ x attempts, m.pending_enumerate[req]? = some x ∧ m.scope_of x = some s ∧
      m.state_of x = some (.enumerating req .cold attempts true)

/-- An outstanding stat asks about a live parent of its scope. -/
def Stats (m : Monitor) : Prop :=
  ∀ (req : ReqId) (slot : StatSlot), m.pending_stat[req]? = some slot →
    m.scope_of slot.parent = some slot.scope

/-- The invariants every moment keeps. -/
structure Inv (c : Moment) : Prop where
  tree : c.m.shape.Sound {x | x ∈ c.g.doomed}
  minted : ∀ x, c.m.nodes[x]? ≠ none → x < c.m.watch_ids.next
  spare : Spare c.m c.g.spare
  holds : Holds c.m c.g.transit c.g.spare
  reads : Reads c.m
  stats : Stats c.m

/-- A source that stands in its slot is not held. -/
theorem Inv.unheld {m : Monitor} {g : Ghost} (h : Inv ⟨m, g⟩) {src : WatchId}
    {slot : WatchId × Segment} (hp : m.slot_of src = some slot)
    (hs : m.child_index[slot]? = some src) : src ∉ m.held_sources := by
  intro hm
  obtain ⟨slot', hslot, hne⟩ := h.holds.held_off src hm
  obtain rfl := Option.some.inj (hp.symm.trans hslot)
  exact hne hs

/-! ### Effects that leave every node in its place -/

/-- The tree, its indexes and the minted watches are the same. -/
structure Placed (m m' : Monitor) : Prop where
  watch_ids : m'.watch_ids = m.watch_ids
  shape : m'.shape = m.shape

namespace Placed

variable {m m' m'' : Monitor}

theorem of_eq (h₁ : m'.watch_ids = m.watch_ids) (h₂ : m'.child_index = m.child_index)
    (h₃ : m'.roots = m.roots) (h₄ : m'.nodes = m.nodes) : Placed m m' :=
  ⟨h₁, by simp only [Monitor.shape, h₂, h₃, h₄]⟩

theorem refl (m : Monitor) : Placed m m := of_eq rfl rfl rfl rfl

theorem trans (h : Placed m m') (h' : Placed m' m'') : Placed m m'' :=
  ⟨h'.watch_ids.trans h.watch_ids, h'.shape.trans h.shape⟩

theorem of_modify {id : WatchId} {f : WatchNode → WatchNode}
    (h₁ : m'.watch_ids = m.watch_ids) (h₂ : m'.child_index = m.child_index)
    (h₃ : m'.roots = m.roots) (h₄ : m'.nodes = m.nodes.modify id f)
    (hf : ∀ n, (f n).place = n.place) : Placed m m' := by
  refine ⟨h₁, ?_⟩
  simp only [Monitor.shape, h₂, h₃, h₄]
  congr 1
  funext x
  rw [get_modify]
  split
  · rw [Option.map_map]
    congr 1
    exact funext hf
  · rfl

/-- A live node was live before, in the same place. -/
theorem back (h : Placed m m') {x : WatchId} {n' : WatchNode} (hn : m'.nodes[x]? = some n') :
    ∃ n : WatchNode, m.nodes[x]? = some n ∧ n.place = n'.place := by
  have hp := Monitor.place_of hn
  rw [h.shape] at hp
  exact Monitor.place_eq_some.mp hp

theorem fwd (h : Placed m m') {x : WatchId} {n : WatchNode} (hn : m.nodes[x]? = some n) :
    ∃ n' : WatchNode, m'.nodes[x]? = some n' ∧ n'.place = n.place := by
  have hp := Monitor.place_of hn
  rw [← h.shape] at hp
  exact Monitor.place_eq_some.mp hp

theorem dead_iff (h : Placed m m') {x : WatchId} : m'.nodes[x]? = none ↔ m.nodes[x]? = none := by
  rw [← Monitor.place_none, ← Monitor.place_none, h.shape]

theorem watched (h : Placed m m') (x : WatchId) : m'.is_watched x = m.is_watched x := by
  rw [Bool.eq_iff_iff]
  simp only [Monitor.is_watched, contains_iff, ← Option.ne_none_iff_exists', ne_eq, h.dead_iff]

theorem child_index (h : Placed m m') (k : WatchId × Segment) :
    m'.child_index[k]? = m.child_index[k]? :=
  congrFun (congrArg Shape.slot h.shape) k

theorem roots (h : Placed m m') (s : ScopeId) : m'.roots[s]? = m.roots[s]? :=
  congrFun (congrArg Shape.root h.shape) s

theorem slot_of (h : Placed m m') (x : WatchId) : m'.slot_of x = m.slot_of x := by
  rw [Monitor.slot_of_shape, Monitor.slot_of_shape, h.shape]

theorem scope_of (h : Placed m m') (x : WatchId) : m'.scope_of x = m.scope_of x := by
  rw [Monitor.scope_of_shape, Monitor.scope_of_shape, h.shape]

end Placed

theorem Holds.placed {m m' : Monitor} {transit : Option WatchId} {spare : List WatchId}
    (h : Holds m transit spare) (hp : Placed m m') (hm : m'.pending_moves = m.pending_moves)
    (hh : m'.held_sources = m.held_sources) : Holds m' transit spare where
  half_scope := by
    rw [hm]
    exact h.half_scope
  half_minted := by
    rw [hm, hp.watch_ids]
    exact h.half_minted
  half_held k hf x s := by
    rw [hm, hh, hp.scope_of]
    exact h.half_held k hf x s
  half_unique k k' hf hf' x s := by
    rw [hm, hp.scope_of]
    exact h.half_unique k k' hf hf' x s
  held_off x hx := by
    obtain ⟨slot, hs, hi⟩ := h.held_off x (hh ▸ hx)
    exact ⟨slot, by rw [hp.slot_of, hs], by rw [hp.child_index]; exact hi⟩
  held_half x hx := by
    rw [hm]
    exact h.held_half x (hh ▸ hx)
  transit_minted := by
    rw [hp.watch_ids]
    exact h.transit_minted
  transit_off x hx := by
    rw [hp.dead_iff, hp.slot_of]
    exact h.transit_off x hx
  slotted x slot hx := by
    rw [hh, hp.child_index]
    exact h.slotted x slot (hp.slot_of x ▸ hx)

theorem Spare.placed {m m' : Monitor} {spare : List WatchId} (h : Spare m spare)
    (hp : Placed m m') : Spare m' spare where
  minted := by
    rw [hp.watch_ids]
    exact h.minted
  dead x hx := hp.dead_iff.mpr (h.dead x hx)

theorem Reads.same {m m' : Monitor} (h : Reads m) (hs : m'.state_of = m.state_of)
    (hc : m'.scope_of = m.scope_of) (hr : m'.req_ids = m.req_ids)
    (hp : m'.pending_enumerate = m.pending_enumerate)
    (hl : m'.latent_cold = m.latent_cold) : Reads m' := by
  refine ⟨?_, ?_, ?_⟩
  · rw [hs, hp]
    exact h.reading
  · rw [hp, hr, hs]
    exact h.waiting
  · rw [hl, hp, hs, hc]
    exact h.latent

theorem Stats.placed {m m' : Monitor} (h : Stats m) (hp : Placed m m')
    (hr : Monitor.Restats m.pending_stat m'.pending_stat) : Stats m' := by
  intro req slot' hs
  obtain ⟨slot, hs, hpar, -, hsc⟩ := hr req slot' hs
  rw [hp.scope_of, hpar, hsc]
  exact h req slot hs

end Proto
