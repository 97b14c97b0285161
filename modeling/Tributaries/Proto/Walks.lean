import Tributaries.Proto.Invariants

/-! # Bounded walks up the tree

  The loops over `nodes.len()` are reads of the chain of a node: the list
  of the node and its ancestors is no longer than the node map, so none
  of them runs out of steps on a sound tree.
-/

open Std Collections SlotForest Forest

namespace Proto

namespace Monitor

variable {m : Monitor}

theorem up_of {x : WatchId} : m.shape.up x = (m.nodes[x]?).bind (·.parent) := by
  simp only [Shape.up, shape, Option.bind_map]
  rfl

theorem up_live {x : WatchId} {n : WatchNode} (h : m.nodes[x]? = some n) :
    m.shape.up x = n.parent := by
  rw [up_of, h]
  rfl

/-! ### The loops along a chain -/

theorem is_descendant_loop_chain {ancestor x : WatchId} {l : List WatchId}
    (h : Chain m.shape.up x l) {n : Nat} (hn : l.length ≤ n) :
    m.is_descendant_loop ancestor n (some x) = true ↔ ancestor ∈ l := by
  induction h generalizing n with
  | @root x hx =>
    obtain ⟨n, rfl⟩ : ∃ k, n = k + 1 := ⟨n - 1, by simp at hn; omega⟩
    rw [up_of] at hx
    have hnone : m.is_descendant_loop ancestor n none = false := by cases n <;> rfl
    simp only [is_descendant_loop, hx, hnone, Bool.or_false, beq_iff_eq, List.mem_singleton]
    exact eq_comm
  | @step x p l hx hp ih =>
    obtain ⟨n, rfl⟩ : ∃ k, n = k + 1 := ⟨n - 1, by simp at hn; omega⟩
    rw [up_of] at hx
    simp only [is_descendant_loop, hx, Bool.or_eq_true, beq_iff_eq, List.mem_cons]
    rw [ih (by simpa using hn), eq_comm]

theorem in_held_loop_chain {x : WatchId} {l : List WatchId}
    (h : Chain m.shape.up x l) {n : Nat} (hn : l.length ≤ n) :
    m.in_held_loop n (some x) = l.find? (m.held_sources.contains ·) := by
  induction h generalizing n with
  | @root x hx =>
    obtain ⟨n, rfl⟩ : ∃ k, n = k + 1 := ⟨n - 1, by simp at hn; omega⟩
    rw [up_of] at hx
    have hnone : m.in_held_loop n none = none := by cases n <;> rfl
    simp only [in_held_loop, hx, hnone, List.find?_cons, List.find?_nil]
    cases m.held_sources.contains x <;> rfl
  | @step x p l hx hp ih =>
    obtain ⟨n, rfl⟩ : ∃ k, n = k + 1 := ⟨n - 1, by simp at hn; omega⟩
    rw [up_of] at hx
    simp only [in_held_loop, hx, List.find?_cons]
    rw [ih (by simpa using hn)]
    cases m.held_sources.contains x <;> rfl

/-- Whether a node moved after the stamp. -/
def moved_after (m : Monitor) (stamp : Nat) (x : WatchId) : Bool :=
  (m.nodes[x]?).any fun node => decide (stamp < node.moved_at)

theorem placement_moved_loop_chain {stamp : Nat} {x : WatchId} {l : List WatchId}
    (h : Chain m.shape.up x l) {n : Nat} (hn : l.length ≤ n) :
    m.placement_moved_loop stamp n (some x) = l.any (m.moved_after stamp) := by
  induction h generalizing n with
  | @root x hx =>
    obtain ⟨n, rfl⟩ : ∃ k, n = k + 1 := ⟨n - 1, by simp at hn; omega⟩
    rw [up_of] at hx
    have hnone : m.placement_moved_loop stamp n none = false := by cases n <;> rfl
    simp only [placement_moved_loop, moved_after, List.any_cons, List.any_nil, Bool.or_false]
    cases hm : m.nodes[x]? with
    | none => rfl
    | some node =>
      have hp : node.parent = none := by simpa [hm] using hx
      simp [hp, hnone]
  | @step x p l hx hp ih =>
    obtain ⟨n, rfl⟩ : ∃ k, n = k + 1 := ⟨n - 1, by simp at hn; omega⟩
    rw [up_of] at hx
    simp only [placement_moved_loop, List.any_cons]
    cases hm : m.nodes[x]? with
    | none => simp [hm] at hx
    | some node =>
      have hpar : node.parent = some p := by simpa [hm] using hx
      simp only [hpar]
      rw [ih (by simpa using hn)]
      simp [moved_after, hm]

/-- The names along a chain, root first. -/
def names (m : Monitor) (l : List WatchId) : Location :=
  (l.filterMap fun x => (m.nodes[x]?).bind (·.name)).reverse

theorem location_loop_chain {x : WatchId} {l : List WatchId} (h : Chain m.shape.up x l) {n : Nat}
    (hn : l.length ≤ n) (segments : Location) :
    m.location_loop n (some x) segments = m.names l ++ segments := by
  induction h generalizing n segments with
  | @root x hx =>
    obtain ⟨n, rfl⟩ : ∃ k, n = k + 1 := ⟨n - 1, by simp at hn; omega⟩
    rw [up_of] at hx
    have hnone : ∀ s, m.location_loop n none s = s := fun s => by cases n <;> rfl
    simp only [location_loop, names]
    cases hm : m.nodes[x]? with
    | none => simp [hm]
    | some node =>
      have hp : node.parent = none := by simpa [hm] using hx
      cases hname : node.name <;> simp [hp, hnone, hm, hname]
  | @step x p l hx hp ih =>
    obtain ⟨n, rfl⟩ : ∃ k, n = k + 1 := ⟨n - 1, by simp at hn; omega⟩
    rw [up_of] at hx
    simp only [location_loop]
    cases hm : m.nodes[x]? with
    | none => simp [hm] at hx
    | some node =>
      have hpar : node.parent = some p := by simpa [hm] using hx
      simp only [hpar]
      rw [ih (by simpa using hn)]
      cases hname : node.name <;> simp [names, hm, hname]

/-! ### What the walks read -/

theorem in_held_subtree_congr {m' : Monitor} (hn : m'.nodes = m.nodes)
    (hh : m'.held_sources = m.held_sources) (x : WatchId) :
    m'.in_held_subtree x = m.in_held_subtree x := by
  have loop : ∀ n c, m'.in_held_loop n c = m.in_held_loop n c := by
    intro n
    induction n with
    | zero => exact fun _ => rfl
    | succ n ih =>
      intro c
      cases c with
      | none => rfl
      | some id => simp only [in_held_loop, hn, hh, ih]
  simp only [in_held_subtree, hn, loop]

theorem placement_moved_congr {m' : Monitor} (hn : m'.nodes = m.nodes) (x : WatchId)
    (stamp : Nat) : m'.placement_moved_since x stamp = m.placement_moved_since x stamp := by
  have loop : ∀ n c, m'.placement_moved_loop stamp n c = m.placement_moved_loop stamp n c := by
    intro n
    induction n with
    | zero => exact fun _ => rfl
    | succ n ih =>
      intro c
      cases c with
      | none => rfl
      | some id => simp only [placement_moved_loop, hn, ih]
  simp only [placement_moved_since, hn, loop]

theorem location_of_congr {m' : Monitor} (hn : m'.nodes = m.nodes) (x : WatchId) :
    m'.location_of x = m.location_of x := by
  have loop : ∀ n c segments, m'.location_loop n c segments = m.location_loop n c segments := by
    intro n
    induction n with
    | zero => exact fun _ _ => rfl
    | succ n ih =>
      intro c segments
      cases c with
      | none => rfl
      | some id => simp only [location_loop, hn, ih]
  simp only [location_of, hn, loop]

/-! ### The walks on a sound tree -/

/-- The chain of a live node is made of live nodes of its scope, ends at the
    scope's root, and is no longer than the node map. -/
theorem chain_of (h : m.shape.Sound ∅) {x : WatchId} {n : WatchNode}
    (hn : m.nodes[x]? = some n) :
    ∃ l, Chain m.shape.up x l ∧ l.length ≤ m.nodes.size ∧
      (∀ y ∈ l, ∃ ny : WatchNode, m.nodes[y]? = some ny ∧ ny.scope = n.scope) ∧
      ∃ r ∈ l, m.roots[n.scope]? = some r := by
  obtain ⟨l, hl, hall, hr⟩ := h.chain (place_of hn)
  have hall' : ∀ y ∈ l, ∃ ny : WatchNode, m.nodes[y]? = some ny ∧ ny.scope = n.scope := by
    intro y hy
    obtain ⟨q, hq, hs⟩ := hall y hy
    obtain ⟨ny, hny, rfl⟩ := place_eq_some.mp hq
    exact ⟨ny, hny, hs⟩
  refine ⟨l, hl, length_le_size hl.nodup fun y hy => ?_, hall', hr⟩
  obtain ⟨ny, hny, -⟩ := hall' y hy
  exact contains_iff.mpr ⟨ny, hny⟩

theorem chain_dead {x : WatchId} (hn : m.nodes[x]? = none) : Chain m.shape.up x [x] :=
  .root (by rw [up_of, hn]; rfl)

/-- Every chain of a sound tree fits in the bound of the two long walks. -/
theorem chain_fits (h : m.shape.Sound ∅) (x : WatchId) :
    ∃ l, Chain m.shape.up x l ∧ l.length ≤ m.nodes.size + 1 := by
  cases hn : m.nodes[x]? with
  | none => exact ⟨[x], chain_dead hn, by simp⟩
  | some n =>
    obtain ⟨l, hl, hle, -⟩ := chain_of h hn
    exact ⟨l, hl, by omega⟩

theorem is_descendant_iff (h : m.shape.Sound ∅) {x ancestor : WatchId} :
    m.is_descendant x ancestor = true ↔ Above m.shape.up ancestor x := by
  obtain ⟨l, hl, hle⟩ := chain_fits h x
  rw [Above.iff_mem hl]
  exact is_descendant_loop_chain hl hle

theorem in_held_subtree_eq (h : m.shape.Sound ∅) {x : WatchId} {l : List WatchId}
    (hl : Chain m.shape.up x l) : m.in_held_subtree x = l.find? (m.held_sources.contains ·) := by
  obtain ⟨l', hl', hle⟩ := chain_fits h x
  rw [hl.unique hl']
  exact in_held_loop_chain hl' hle

theorem placement_moved_since_eq (h : m.shape.Sound ∅) {x : WatchId} {l : List WatchId}
    (hl : Chain m.shape.up x l) {n : WatchNode} (hn : m.nodes[x]? = some n) (stamp : Nat) :
    m.placement_moved_since x stamp = l.any (m.moved_after stamp) := by
  obtain ⟨l', hl', hle, -⟩ := chain_of h hn
  rw [hl.unique hl']
  exact placement_moved_loop_chain hl' hle

theorem location_of_eq (h : m.shape.Sound ∅) {x : WatchId} {l : List WatchId}
    (hl : Chain m.shape.up x l) {n : WatchNode} (hn : m.nodes[x]? = some n) :
    m.location_of x = m.names l := by
  obtain ⟨l', hl', hle, -⟩ := chain_of h hn
  rw [hl.unique hl', location_of, location_loop_chain hl' hle, List.append_nil]

theorem in_held_subtree_none (h : m.shape.Sound ∅) {x : WatchId} :
    m.in_held_subtree x = none ↔ ∀ y, Above m.shape.up y x → y ∉ m.held_sources := by
  obtain ⟨l, hl, -⟩ := chain_fits h x
  rw [in_held_subtree_eq h hl, List.find?_eq_none]
  constructor
  · intro hh y hy
    simpa using hh y ((Above.iff_mem hl).mp hy)
  · intro hh y hy
    simpa using hh y ((Above.iff_mem hl).mpr hy)

end Monitor

end Proto
