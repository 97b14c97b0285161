import Tributaries.Proto.Traces

/-! # Drop walks as paths of effects

  `drop_subtree` opens a walk, removes what it reaches and closes the walk.
  The fuel of its loop is enough because each round pops one entry and a
  removed node's children leave the sum of the children that are left.

  A drop only takes away: what is left stands where it stood.
-/

open Std Collections SlotForest Forest

namespace Proto

variable {m m' m'' : Monitor} {g : Ghost} {k : Option Answer}

/-! ### What a drop leaves -/

/-- Whatever is left stands where it stood. -/
structure Pruned (m m' : Monitor) : Prop where
  back : ∀ x q', m'.shape.place x = some q' → ∃ q, m.shape.place x = some q ∧
    q'.parent = q.parent ∧ q'.name = q.name ∧ q'.scope = q.scope ∧ q'.children ⊆ q.children
  index : ∀ (k : WatchId × Segment) (y : WatchId),
    m'.child_index[k]? = some y → m.child_index[k]? = some y
  roots : ∀ (s : ScopeId) (r : WatchId), m'.roots[s]? = some r → m.roots[s]? = some r
  held : ∀ x ∈ m'.held_sources, x ∈ m.held_sources
  markers : ∀ (x : WatchId) (marker : AdoptionMarker),
    m'.pending_adoptions[x]? = some marker → m.pending_adoptions[x]? = some marker

namespace Pruned

theorem of_placed (h : Placed m m') (hh : m'.held_sources = m.held_sources)
    (hm : m'.pending_adoptions = m.pending_adoptions) : Pruned m m' where
  back _ q' hq := ⟨q', h.shape ▸ hq, rfl, rfl, rfl, subset_rfl⟩
  index k _ hy := h.child_index k ▸ hy
  roots s _ hr := h.roots s ▸ hr
  held _ hx := hh ▸ hx
  markers _ _ hk := hm ▸ hk

theorem refl (m : Monitor) : Pruned m m := .of_placed (.refl m) rfl rfl

theorem trans (h : Pruned m m') (h' : Pruned m' m'') : Pruned m m'' where
  back x q'' hq := by
    obtain ⟨q', hq', h₁, h₂, h₃, h₄⟩ := h'.back x q'' hq
    obtain ⟨q, hq, h₅, h₆, h₇, h₈⟩ := h.back x q' hq'
    exact ⟨q, hq, h₁.trans h₅, h₂.trans h₆, h₃.trans h₇, h₄.trans h₈⟩
  index k y hy := h.index k y (h'.index k y hy)
  roots s r hr := h.roots s r (h'.roots s r hr)
  held x hx := h.held x (h'.held x hx)
  markers x k hk := h.markers x k (h'.markers x k hk)

/-- A node that is left was there before. -/
theorem node_back (h : Pruned m m') {x : WatchId} {n' : WatchNode}
    (hn : m'.nodes[x]? = some n') : ∃ n : WatchNode, m.nodes[x]? = some n ∧
      n'.parent = n.parent ∧ n'.name = n.name ∧ n'.scope = n.scope ∧
      ∀ y ∈ n'.children, y ∈ n.children := by
  obtain ⟨q, hq, h₁, h₂, h₃, h₄⟩ := h.back x n'.place (Monitor.place_of hn)
  obtain ⟨n, hn, rfl⟩ := Monitor.place_eq_some.mp hq
  exact ⟨n, hn, h₁, h₂, h₃, fun y hy => h₄ hy⟩

theorem dead (h : Pruned m m') {x : WatchId} (hn : m.nodes[x]? = none) :
    m'.nodes[x]? = none := by
  cases hx : m'.nodes[x]? with
  | none => rfl
  | some n' =>
    obtain ⟨n, hn', -⟩ := h.node_back hx
    rw [hn] at hn'
    cases hn'

theorem slot_back (h : Pruned m m') {x : WatchId} {slot : WatchId × Segment}
    (hs : m'.slot_of x = some slot) : m.slot_of x = some slot := by
  obtain ⟨p, name⟩ := slot
  obtain ⟨n', hn', hp, hname⟩ := Monitor.slot_of_eq_some.mp hs
  obtain ⟨n, hn, h₁, h₂, -⟩ := h.node_back hn'
  exact Monitor.slot_of_eq_some.mpr ⟨n, hn, h₁ ▸ hp, h₂ ▸ hname⟩

theorem scope_back (h : Pruned m m') {x : WatchId} {s : ScopeId}
    (hs : m'.scope_of x = some s) : m.scope_of x = some s := by
  obtain ⟨n', hn', hsc⟩ := Monitor.scope_of_eq_some.mp hs
  obtain ⟨n, hn, -, -, h₃, -⟩ := h.node_back hn'
  exact Monitor.scope_of_eq_some.mpr ⟨n, hn, h₃ ▸ hsc⟩

/-- A watch that is left has the parents it had. -/
theorem above (h : Pruned m m') {a x : WatchId} (ha : Above m'.shape.up a x)
    (hx : m'.nodes[x]? ≠ none) (hs : m'.shape.Sound ∅) :
    Above m.shape.up a x := by
  obtain ⟨n, hn⟩ := Option.ne_none_iff_exists'.mp hx
  obtain ⟨l, hl, -, hall, -⟩ := Monitor.chain_of hs hn
  have hmem := (Above.iff_mem hl).mp ha
  refine ⟨l, hl.congr fun y hy => ?_, hmem⟩
  obtain ⟨ny, hny, -⟩ := hall y hy
  obtain ⟨nx, hnx, hp, -⟩ := h.node_back hny
  rw [Monitor.up_live hny, Monitor.up_live hnx, hp]

end Pruned

theorem Calm.pruned (h : Calm k m m') : Pruned m m' := by
  cases h with
  | deliver h =>
    have hp := h.placed
    rw [h.shape] at hp ⊢
    exact .of_placed hp rfl rfl
  | ledger h =>
    have hp := h.placed
    rw [h.shape] at hp ⊢
    exact .of_placed hp rfl rfl
  | work h =>
    have hp := h.placed
    rw [h.shape] at hp ⊢
    exact .of_placed hp rfl rfl
  | remark => exact .of_placed (.of_eq rfl rfl rfl rfl) rfl rfl

theorem Calms.pruned (h : Calms k m m') : Pruned m m' := by
  induction h with
  | refl => exact .refl _
  | tail _ e ih => exact ih.trans e.pruned

theorem remove_pruned (id : WatchId) (node : WatchNode) (erased : ErasedCovers) :
    Pruned m (m.remove_node id node erased).1 := by
  have hshape := Monitor.remove_shape (m := m) id node erased
  obtain ⟨_, _, _, -, -, he, -⟩ := m.remove_node_eq id node erased
  refine ⟨fun x q' hq => ?_, fun k y hy => ?_, fun s r hr => ?_, fun x hx => ?_,
    fun x marker hm => ?_⟩
  · rw [hshape, Shape.remove_place] at hq
    split at hq
    · cases hq
    · split at hq
      · obtain ⟨q, hq₀, rfl⟩ := Option.map_eq_some_iff.mp hq
        exact ⟨q, hq₀, rfl, rfl, rfl, fun y hy => hy.1⟩
      · exact ⟨q', hq, rfl, rfl, rfl, subset_rfl⟩
  · rw [he] at hy
    simp only [Monitor.get_unlinked_index] at hy
    split at hy
    · cases hy
    · exact hy
  · rw [he] at hr
    simp only [Monitor.get_unlinked_roots] at hr
    split at hr
    · cases hr
    · exact hr
  · rw [he] at hx
    exact (mem_erase_iff.mp hx).2
  · rw [he] at hm
    dsimp only at hm
    rw [get_erase] at hm
    split at hm
    · cases hm
    · exact hm

/-! ### The walk -/

/-- The rounds a walk over this stack can take. -/
def walk_weight (m : Monitor) (stack : List WatchId) : Nat :=
  stack.length + tally (fun _ (n : WatchNode) => n.children.size) m.nodes

theorem weight_remove {id : WatchId} {node : WatchNode} (erased : ErasedCovers)
    (hn : m.nodes[id]? = some node) :
    tally (fun _ (n : WatchNode) => n.children.size) (m.remove_node id node erased).1.nodes +
      node.children.size ≤ tally (fun _ (n : WatchNode) => n.children.size) m.nodes := by
  obtain ⟨_, _, _, -, -, he, -⟩ := m.remove_node_eq id node erased
  have h₁ := tally_erase (f := fun _ (n : WatchNode) => n.children.size) hn
  rw [he]
  dsimp only [Monitor.unlinked_nodes]
  cases node.parent with
  | none =>
    dsimp only
    omega
  | some parent =>
    dsimp only
    cases hp : (m.nodes.erase id)[parent]? with
    | none =>
      rw [modify_absent hp]
      omega
    | some np =>
      have h₂ := tally_modify (f := fun _ (n : WatchNode) => n.children.size)
        (g := fun n => { n with children := n.children.erase id }) hp
      have h₃ : (np.children.erase id).size ≤ np.children.size := ExtTreeSet.size_erase_le
      dsimp only at h₂
      omega

/-- With enough fuel the loop empties its stack, and all it met is dead. -/
theorem drop_walk_trace {scope : Option ScopeId} {mode : DeficitDischarge}
    {anchor : Option (ScopeId × WatchId × Segment)} (n : Nat) :
    ∀ {m : Monitor} {stack : List WatchId} {erased : ErasedCovers}, walk_weight m stack < n →
      Trace ⟨m, { g with walk := some ⟨stack, erased, scope, mode, anchor⟩ }⟩
        ⟨(Monitor.drop_walk n m stack erased).1,
          { g with
            walk := some ⟨[], (Monitor.drop_walk n m stack erased).2, scope, mode, anchor⟩ }⟩ ∧
      Pruned m (Monitor.drop_walk n m stack erased).1 ∧
      ∀ x ∈ stack, (Monitor.drop_walk n m stack erased).1.nodes[x]? = none := by
  induction n with
  | zero =>
    intro m stack erased h
    exact absurd h (Nat.not_lt_zero _)
  | succ n ih =>
    intro m stack erased h
    cases stack with
    | nil => exact ⟨.refl, .refl m, by simp⟩
    | cons id stack =>
      cases hn : m.nodes[id]? with
      | none =>
        simp only [Monitor.drop_walk, hn]
        obtain ⟨ht, hp, hd⟩ := @ih m stack erased
          (by simp only [walk_weight, List.length_cons] at h ⊢; omega)
        refine ⟨.head (.skip_dead rfl rfl hn) ht, hp, fun x hx => ?_⟩
        rcases List.mem_cons.mp hx with rfl | hx
        · exact hp.dead hn
        · exact hd x hx
      | some node =>
        simp only [Monitor.drop_walk, hn]
        have hw := weight_remove erased hn
        obtain ⟨ht, hp, hd⟩ := @ih (m.remove_node id node erased).1
          (node.children.toList.reverse ++ stack) (m.remove_node id node erased).2 (by
            simp only [walk_weight, List.length_cons, List.length_append, List.length_reverse,
              ExtTreeSet.length_toList] at h ⊢
            omega)
        have hpr := remove_pruned id node (m := m) erased
        refine ⟨.head (.edit (.remove rfl rfl hn)) ht, hpr.trans hp, fun x hx => ?_⟩
        rcases List.mem_cons.mp hx with rfl | hx
        · exact hp.dead (remove_death erased hn).dead
        · exact hd x (by simp [hx])

theorem drop_fuel_enough (root : WatchId) : walk_weight m [root] < m.drop_fuel + 1 := by
  simp only [walk_weight, Monitor.drop_fuel, tally, List.length_singleton]
  omega

/-- A drop after its walk: the cover of what the walk erased. -/
theorem drop_subtree_eq (root : WatchId) (mode : DeficitDischarge) :
    (m.drop_subtree root mode).1 =
      let w := Monitor.drop_walk (m.drop_fuel + 1) m [root] .default
      let m₂ := (w.1.discharge { m.open_walk root mode with stack := [], erased := w.2 }).1
      if w.2.counted && (mode = .coveringRescan || mode = .reanchor) then
        match m.scope_of root with
        | some scope => m₂.stand_counted_cover scope
        | none => m₂
      else m₂ := rfl

theorem discharge_pruned (walk : Walk) : Pruned m (m.discharge walk).1 := by
  rcases discharge_cases (m := m) walk with he | ⟨_, d₁, d₂⟩ | l
  · rw [he]
    exact .refl m
  · exact (Calm.deliver (k := none) d₁).pruned.trans (Calm.deliver (k := none) d₂).pruned
  · exact (Calm.ledger (k := none) l).pruned

/-- A drop whose walk is open: a path of effects that only takes away, and
    its root is dead. -/
theorem drop_opened_trace (root : WatchId) (mode : DeficitDischarge) (hw : g.walk = none) :
    Trace ⟨m, { g with walk := some (m.open_walk root mode) }⟩ ⟨(m.drop_subtree root mode).1, g⟩ ∧
      Pruned m (m.drop_subtree root mode).1 ∧
      (m.drop_subtree root mode).1.nodes[root]? = none := by
  obtain ⟨ht, hp, hd⟩ := @drop_walk_trace g (m.scope_of root) mode
    (m.open_walk root mode).anchor _ m [root] .default (drop_fuel_enough root)
  rw [drop_subtree_eq]
  dsimp only
  generalize Monitor.drop_walk (m.drop_fuel + 1) m [root] .default = walked at ht hp hd ⊢
  obtain ⟨m₁, erased⟩ := walked
  dsimp only at ht hp hd ⊢
  have hg : { g with walk := none } = g := by rw [← hw]
  have hclose := Effect.close_drop (m := m₁)
    (g := { g with walk := some { m.open_walk root mode with stack := [], erased := erased } })
    rfl rfl
  dsimp only at hclose
  rw [hg] at hclose
  have ht' := ht.tail hclose
  have hp' := discharge_pruned (m := m₁)
    { m.open_walk root mode with stack := [], erased := erased }
  have hd' := hp'.dead (hd root (by simp))
  generalize (m₁.discharge { m.open_walk root mode with stack := [], erased := erased }).1 = m₂
    at ht' hp' hd' ⊢
  split
  · split
    · have hc := stand_counted_cover_calm (k := g.answer) (m := m₂) ‹ScopeId›
      exact ⟨ht'.trans hc.trace, (hp.trans hp').trans hc.pruned, hc.pruned.dead hd'⟩
    · exact ⟨ht', hp.trans hp', hd'⟩
  · exact ⟨ht', hp.trans hp', hd'⟩

/-- A drop is a path of effects that only takes away, and its root is dead. -/
theorem drop_subtree_trace (root : WatchId) (mode : DeficitDischarge) (hw : g.walk = none) :
    Trace ⟨m, g⟩ ⟨(m.drop_subtree root mode).1, g⟩ ∧ Pruned m (m.drop_subtree root mode).1 ∧
      (m.drop_subtree root mode).1.nodes[root]? = none := by
  obtain ⟨ht, hp, hd⟩ := drop_opened_trace (m := m) root mode hw
  exact ⟨.head (.open_drop hw) ht, hp, hd⟩

end Proto
