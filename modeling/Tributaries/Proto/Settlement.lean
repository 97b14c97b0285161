import Tributaries.Proto.Turns
import Tributaries.Tally
import Tributaries.Meter

/-! # What keeps a scope unsettled

  `coverage_settled` reads five stores: the counted re-arm work, the held
  sources, the latent cold reads, the adoption markers and the parked
  halves.  Three of them are read through counters kept beside them.
  This module ties the counters to the stores, and shows that a store
  takes an entry on only together with an advance of the scope's
  coverage-work epoch.
-/

open Std Collections SlotForest Tally Meter

namespace Proto

variable {m m' : Monitor} {g g' : Ghost}

/-! ### The entries -/

/-- An entry of one of the five stores behind `coverage_settled`. -/
inductive Entry where
  | rearm (watch : WatchId)
  | hold (source : WatchId)
  | latent (req : ReqId)
  | marker (parent : WatchId)
  | half (cookie : MoveCookie)

namespace Monitor

/-- Whether a node's state is counted re-arm work of the scope. -/
def counted (m : Monitor) (scope : ScopeId) (x : WatchId) : Prop :=
  ∃ n, m.nodes[x]? = some n ∧ n.scope = scope ∧ n.state.is_rearm = true

/-- The entries that keep a scope unsettled. -/
def outstanding (m : Monitor) (scope : ScopeId) : Set Entry := fun
  | .rearm x => m.counted scope x
  | .hold src => src ∈ m.held_sources ∧ m.scope_of src = some scope
  | .latent req => m.latent_cold[req]? = some scope
  | .marker x => m.pending_adoptions[x]? ≠ none ∧ m.scope_of x = some scope
  | .half cookie => m.pending_moves[(scope, cookie)]? ≠ none

end Monitor

/-- The counters beside the stores are the numbers of their entries. -/
structure Tallied (m : Monitor) : Prop where
  rearm : Counts m.rearm_pending fun s => {x | m.counted s x}
  held : Counts m.held_by_scope fun s => {x | x ∈ m.held_sources ∧ m.scope_of x = some s}
  adopting : Counts m.adopting_by_scope
    fun s => {x | m.pending_adoptions[x]? ≠ none ∧ m.scope_of x = some s}

/-! ### Reading the stores -/

/-- Keys are compared by scope first. -/
theorem compare_key (k l : PendingKey) :
    compare k l = .lt ↔ k.1.as_u64 < l.1.as_u64 ∨ k.1 = l.1 ∧ k.2.as_u64 < l.2.as_u64 := by
  have h : compare k l = (compare k.1.as_u64 l.1.as_u64).then (compare k.2.as_u64 l.2.as_u64) := rfl
  have he : k.1 = l.1 ↔ k.1.as_u64 = l.1.as_u64 := ⟨congrArg _, ProtoId.ext⟩
  rw [h, he, Ordering.then_eq_lt, Nat.compare_eq_lt, Nat.compare_eq_eq, Nat.compare_eq_lt]

/-- The first key of a scope's range is past the keys of the scopes before it. -/
theorem before_scope (scope : ScopeId) (k : PendingKey) :
    (compare k (scope, FIRST_COOKIE)).isLT = true ↔ k.1.as_u64 < scope.as_u64 := by
  rw [Ordering.isLT_iff_eq_lt, compare_key]
  have := k.2.nonzero
  simp only [FIRST_COOKIE, ProtoId.min]
  omega

/-- The halves are listed scope by scope. -/
theorem halves_sorted (m : Monitor) :
    m.pending_moves.toList.Pairwise fun a b => a.1.1.as_u64 ≤ b.1.1.as_u64 := by
  have hsorted : m.pending_moves.toList.Pairwise fun a b => compare a.1 b.1 = .lt :=
    ExtTreeMap.ordered_keys_toList
  refine hsorted.imp fun {a b} h => ?_
  rcases (compare_key _ _).mp h with hlt | ⟨heq, -⟩
  · exact Nat.le_of_lt hlt
  · exact Nat.le_of_eq (congrArg _ heq)

/-- The halves from the first key of a scope on. -/
theorem halves_from (scope : ScopeId) :
    (m.pending_moves.toList.dropWhile fun e => (compare e.1 (scope, FIRST_COOKIE)).isLT) =
      m.pending_moves.toList.filter fun e => !(compare e.1 (scope, FIRST_COOKIE)).isLT := by
  refine dropWhile_eq_filter ((halves_sorted m).imp fun {a b} hle hb => ?_)
  rw [before_scope] at hb ⊢
  omega

theorem mem_halves_from {scope : ScopeId} {e : PendingKey × PendingMove} :
    e ∈ (m.pending_moves.toList.dropWhile fun e => (compare e.1 (scope, FIRST_COOKIE)).isLT) ↔
      m.pending_moves[e.1]? = some e.2 ∧ scope.as_u64 ≤ e.1.1.as_u64 := by
  rw [halves_from, List.mem_filter, Bool.not_eq_true', ← Bool.not_eq_true, before_scope, Nat.not_lt]
  exact and_congr_left' mem_toList

/-- The range of a scope holds the scope's halves. -/
theorem mem_scope_halves {scope : ScopeId} {e : PendingKey × PendingMove} :
    e ∈ m.scope_halves scope ↔ m.pending_moves[e.1]? = some e.2 ∧ e.1.1 = scope := by
  have hsorted : (m.pending_moves.toList.dropWhile fun e =>
      (compare e.1 (scope, FIRST_COOKIE)).isLT).Pairwise
        fun a b => (b.1.1 == scope) = true → (a.1.1 == scope) = true := by
    refine ((halves_sorted m).sublist (List.dropWhile_sublist _)).imp_of_mem ?_
    intro a b ha hb hle hscope
    have hge := (mem_halves_from.mp ha).2
    rw [beq_iff_eq] at hscope ⊢
    rw [hscope] at hle
    exact ProtoId.ext (Nat.le_antisymm hle hge)
  unfold Monitor.scope_halves
  rw [takeWhile_eq_filter hsorted, List.mem_filter, mem_halves_from, beq_iff_eq]
  constructor
  · intro h
    exact ⟨h.1.1, h.2⟩
  · intro h
    exact ⟨⟨h.1, Nat.le_of_eq (congrArg _ h.2.symm)⟩, h.2⟩

/-- The first key at or past a scope's range is the scope's own if it has any. -/
theorem moves_settled_iff (scope : ScopeId) :
    m.moves_settled scope = true ↔
      ∀ cookie : MoveCookie, m.pending_moves[(scope, cookie)]? = none := by
  unfold Monitor.moves_settled
  constructor
  · intro h cookie
    by_contra hc
    obtain ⟨half, hhalf⟩ := Option.ne_none_iff_exists'.mp hc
    have hmem : ((scope, cookie), half) ∈ m.pending_moves.toList.dropWhile fun e =>
        (compare e.1 (scope, FIRST_COOKIE)).isLT := mem_halves_from.mpr ⟨hhalf, Nat.le_refl _⟩
    have hs := (halves_sorted m).sublist (List.dropWhile_sublist fun e =>
      (compare e.1 (scope, FIRST_COOKIE)).isLT)
    have hge := fun e => (@mem_halves_from m scope e).mp
    revert hmem hs hge h
    cases m.pending_moves.toList.dropWhile fun e => (compare e.1 (scope, FIRST_COOKIE)).isLT with
    | nil => simp
    | cons f rest =>
      intro h hmem hs hge
      have h₁ : scope.as_u64 ≤ f.1.1.as_u64 := (hge f List.mem_cons_self).2
      have h₂ : f.1.1.as_u64 ≤ scope.as_u64 := by
        rcases List.mem_cons.mp hmem with rfl | hm
        · exact Nat.le_refl _
        · exact (List.pairwise_cons.mp hs).1 _ hm
      have : f.1.1 = scope := ProtoId.ext (by omega)
      simp [this] at h
  · intro h
    split
    · rfl
    · rename_i e he
      have hmem := (mem_halves_from (m := m) (e := e)).mp (List.mem_of_mem_head? he)
      rw [bne_iff_ne]
      intro hscope
      have := h e.1.2
      rw [← hscope, hmem.1] at this
      cases this

theorem latent_settled_iff (scope : ScopeId) :
    m.latent_settled scope = true ↔ ∀ req : ReqId, m.latent_cold[req]? ≠ some scope := by
  unfold Monitor.latent_settled
  simp only [Bool.not_eq_true', List.any_eq_false, beq_iff_eq]
  constructor
  · intro h req hr
    exact h (req, scope) (mem_toList.mpr hr) rfl
  · rintro h ⟨req, s⟩ he rfl
    exact h req (mem_toList.mp he)

/-- The barrier is open exactly when none of the five stores has an entry. -/
theorem settled_iff (h : Tallied m) (scope : ScopeId) :
    m.coverage_settled scope = true ↔ m.outstanding scope = ∅ := by
  have contains_iff : ∀ counts : Map ScopeId Nat,
      (!counts.contains scope) = true ↔ counts[scope]? = none := by
    intro counts
    rw [Bool.not_eq_true', contains_false_iff]
  simp only [Monitor.coverage_settled, Bool.and_eq_true, Monitor.rearm_settled,
    Monitor.holds_settled, Monitor.adoptions_settled, contains_iff, latent_settled_iff,
    moves_settled_iff, h.rearm.settled, h.held.settled, h.adopting.settled,
    Set.eq_empty_iff_forall_notMem]
  constructor
  · rintro ⟨⟨⟨⟨hr, hh⟩, hl⟩, ha⟩, hm⟩ e he
    cases e with
    | rearm x => exact hr x he
    | hold x => exact hh x he
    | latent req => exact hl req he
    | marker x => exact ha x he
    | half cookie => exact he (hm cookie)
  · intro h
    refine ⟨⟨⟨⟨fun x hx => h (.rearm x) hx, fun x hx => h (.hold x) hx⟩,
      fun req hr => h (.latent req) hr⟩, fun x hx => h (.marker x) hx⟩, fun cookie => ?_⟩
    by_contra hc
    exact h (.half cookie) hc

/-! ### Counted work -/

/-- The counter and the clock once a node of the scope went from one side to
    the other of counted work. -/
def Monitor.recounted (m : Monitor) (scope : ScopeId) :
    Bool → Bool → Map ScopeId Nat × Map ScopeId Nat
  | false, true => (Monitor.count_up m.rearm_pending scope,
      m.coverage_work_epochs.insert scope (m.coverage_work_count scope + 1))
  | true, false => (Monitor.count_down m.rearm_pending scope 1, m.coverage_work_epochs)
  | _, _ => (m.rearm_pending, m.coverage_work_epochs)

/-- The counter of re-arm work and the clock. -/
def Monitor.toll (m : Monitor) : Map ScopeId Nat × Map ScopeId Nat :=
  (m.rearm_pending, m.coverage_work_epochs)

theorem recounted_congr (h : m'.toll = m.toll) (scope : ScopeId) (was now : Bool) :
    m'.recounted scope was now = m.recounted scope was now := by
  obtain ⟨hr, hw⟩ := Prod.mk.inj h
  cases was <;> cases now <;>
    simp only [Monitor.recounted, Monitor.coverage_work_count, hr, hw]

theorem set_state_toll {x : WatchId} {n : WatchNode} (state : NodeState)
    (hn : m.nodes[x]? = some n) :
    (m.set_state x state).toll = m.recounted n.scope n.state.is_rearm state.is_rearm := by
  have hb : ∀ m₁ : Monitor, ∃ bridge,
      (if Monitor.enters_fresh state n.state then m₁.bridge_fresh_rearm n.scope else m₁) =
        { m₁ with bridge := bridge } := by
    intro m₁
    split
    · exact m₁.fresh_rearm_shape n.scope
    · exact ⟨_, rfl⟩
  obtain ⟨bridge, hb⟩ := hb (m.modify_node x fun n => { n with state := state })
  unfold Monitor.set_state
  simp only [hn, hb]
  cases n.state.is_rearm <;> cases state.is_rearm <;> rfl

/-- One node moved to a state, and its counted work followed. -/
structure Turned (m m' : Monitor) (x : WatchId) (n : WatchNode) (now : Bool) : Prop where
  live : m.nodes[x]? = some n
  nodes : ∃ f, m'.nodes = m.nodes.modify x f ∧
    ∀ n : WatchNode, (f n).scope = n.scope ∧ (f n).state.is_rearm = now
  toll : m'.toll = m.recounted n.scope n.state.is_rearm now
  latent : ∀ (req : ReqId) (s : ScopeId), m'.latent_cold[req]? = some s → m.latent_cold[req]? = some s
  held : m'.held_sources = m.held_sources
  adoptions : m'.pending_adoptions = m.pending_adoptions
  halves : m'.pending_moves = m.pending_moves
  held_by : m'.held_by_scope = m.held_by_scope
  adopting : m'.adopting_by_scope = m.adopting_by_scope

/-- A bare change of state. -/
theorem set_state_turned {x : WatchId} {n : WatchNode} (state : NodeState)
    (hn : m.nodes[x]? = some n) : Turned m (m.set_state x state) x n state.is_rearm := by
  have ht := set_state_toll state hn
  obtain ⟨_, _, _, he⟩ := m.set_state_shape x state
  refine ⟨hn, ⟨_, congrArg Monitor.nodes he, fun n => ⟨rfl, rfl⟩⟩, ht, ?_, ?_, ?_, ?_, ?_, ?_⟩ <;>
    rw [he]
  exact fun req s h => h

theorem forget_state_latent (state : NodeState) {req : ReqId} {s : ScopeId}
    (h : (m.forget_state state).latent_cold[req]? = some s) : m.latent_cold[req]? = some s := by
  unfold Monitor.forget_state at h
  split at h
  · simp only [Monitor.forget_read, get_erase] at h
    split at h
    · cases h
    · exact h
  · exact h

/-- A queued read is a change of state on a Monitor that forgot the read before. -/
theorem queue_enumerate_eq {x : WatchId} {n : WatchNode} (kind : EnumKind) (attempts : Nat)
    (hn : m.nodes[x]? = some n) :
    ∃ m₁ : Monitor, m₁.nodes = (m.nodes.modify x fun n => { n with placement := m.placement_clock }) ∧
      m₁.toll = m.toll ∧
      m.queue_enumerate x kind attempts =
        { m₁.set_state x (.enumerating m.req_ids.next kind attempts false) with
          actions := m.actions ++ [.enumerate m.req_ids.next x] } := by
  obtain ⟨_, _, hf⟩ := m.forget_state_shape n.state
  refine ⟨Monitor.modify_node { m.forget_state n.state with
    req_ids := ⟨m.req_ids.next.succ⟩
    pending_enumerate := (m.forget_state n.state).pending_enumerate.insert m.req_ids.next x } x
      fun n => { n with placement := m.placement_clock }, ?_, ?_, ?_⟩
  · rw [hf]
    rfl
  · rw [hf]
    rfl
  · have hs : m.state_of x = some n.state := state_of_node hn
    have hact : ∀ m₁ : Monitor, ∀ st, (m₁.set_state x st).actions = m₁.actions := by
      intro m₁ st
      obtain ⟨_, _, _, he⟩ := m₁.set_state_shape x st
      rw [he]
    have hm : (m.forget_state n.state).actions = m.actions := by rw [hf]
    have hp : (m.forget_state n.state).req_ids = m.req_ids := by rw [hf]
    have hc : (m.forget_state n.state).placement_clock = m.placement_clock := by rw [hf]
    have he : m.queue_enumerate x kind attempts =
        (let m₁ := m.forget_state n.state
         let m₂ := m₁.next_req_id.1
         let req := m₁.next_req_id.2
         let m₃ := { m₂ with pending_enumerate := m₂.pending_enumerate.insert req x }
         let placement := m₃.placement_now
         let m₄ := m₃.modify_node x fun n => { n with placement := placement }
         let m₅ := m₄.set_state x (.enumerating req kind attempts false)
         { m₅ with actions := m₅.actions ++ [.enumerate req x] }) := by
      simp only [Monitor.queue_enumerate, hs]
      rfl
    rw [he]
    dsimp only [Monitor.next_req_id, Sequence.mint, Monitor.placement_now]
    rw [hact]
    dsimp only [Monitor.modify_node]
    rw [hm, hp, hc]

theorem queue_enumerate_turned {x : WatchId} {n : WatchNode} (kind : EnumKind) (attempts : Nat)
    (hn : m.nodes[x]? = some n) :
    Turned m (m.queue_enumerate x kind attempts) x n
      (NodeState.enumerating m.req_ids.next kind attempts false).is_rearm := by
  have ht : (m.queue_enumerate x kind attempts).toll = m.recounted n.scope n.state.is_rearm
      (NodeState.enumerating m.req_ids.next kind attempts false).is_rearm := by
    obtain ⟨m₁, hnodes, htoll, he⟩ := queue_enumerate_eq kind attempts hn
    have hn₁ : m₁.nodes[x]? = some { n with placement := m.placement_clock } := by
      rw [hnodes, get_modify, if_pos rfl, hn]
      rfl
    have h := set_state_toll (.enumerating m.req_ids.next kind attempts false) hn₁
    rw [he]
    exact h.trans (recounted_congr htoll _ _ _)
  obtain ⟨_, _, _, he⟩ := m.queue_enumerate_shape hn kind attempts
  refine ⟨hn, ⟨_, congrArg Monitor.nodes he, fun n => ⟨rfl, rfl⟩⟩, ht, ?_, ?_, ?_, ?_, ?_, ?_⟩ <;>
    rw [he]
  exact fun req s h => forget_state_latent n.state h

theorem start_reinstall_turned {x : WatchId} {n : WatchNode} (hn : m.nodes[x]? = some n) :
    Turned m (m.start_reinstall x) x n true := by
  have hst : m.state_of x = some n.state := state_of_node hn
  have hsc : m.scope_of x = some n.scope := scope_of_node hn
  by_cases hs : ∃ rearm reprove, n.state = .arming rearm reprove
  · obtain ⟨rearm, reprove, hs⟩ := hs
    have ht : (m.start_reinstall x).toll = m.recounted n.scope n.state.is_rearm true := by
      refine Eq.trans ?_ (set_state_toll (.arming true true) hn)
      simp only [Monitor.start_reinstall, hst, hsc, hs]
      rfl
    obtain ⟨_, _, _, _, he⟩ := m.start_reinstall_arming hn hs
    refine ⟨hn, ⟨_, congrArg Monitor.nodes he, fun n => ⟨rfl, rfl⟩⟩, ht, ?_, ?_, ?_, ?_, ?_, ?_⟩ <;>
      rw [he]
    exact fun req s h => h
  · have hs : ∀ rearm reprove, n.state ≠ .arming rearm reprove := by simpa using hs
    obtain ⟨_, _, hf⟩ := m.forget_state_shape n.state
    have ht : (m.start_reinstall x).toll = m.recounted n.scope n.state.is_rearm true := by
      have hn₁ : (m.forget_state n.state).nodes[x]? = some n := by
        rw [hf]
        exact hn
      have htoll : (m.forget_state n.state).toll = m.toll := by
        rw [hf]
        rfl
      have hq : ∀ m₁ : Monitor, (m₁.queue_reinstall x n.scope).toll = m₁.toll := by
        intro m₁
        unfold Monitor.queue_reinstall Monitor.queue_slot_arm
        cases m₁.nodes[x]? <;> rfl
      have he : m.start_reinstall x =
          ((m.forget_state n.state).set_state x (.arming true true)).queue_reinstall x n.scope := by
        simp only [Monitor.start_reinstall, hst, hsc]
        cases hn : n.state with
        | arming rearm reprove => exact absurd hn (hs rearm reprove)
        | live => rfl
        | enumerating => rfl
      rw [he, hq]
      exact (set_state_toll (.arming true true) hn₁).trans (recounted_congr htoll _ _ _)
    obtain ⟨_, _, _, _, _, he⟩ := m.start_reinstall_shape hn hs
    refine ⟨hn, ⟨_, congrArg Monitor.nodes he, fun n => ⟨rfl, rfl⟩⟩, ht, ?_, ?_, ?_, ?_, ?_, ?_⟩ <;>
      rw [he]
    exact fun req s h => forget_state_latent n.state h

theorem finish_read_turned {req : ReqId} {x : WatchId} {n : WatchNode}
    (hn : m.nodes[x]? = some n) : Turned m (m.finish_read req x) x n false := by
  have ht := set_state_toll (m := m.forget_read req) .live hn
  obtain ⟨_, _, _, he⟩ := (m.forget_read req).set_state_shape x .live
  have he : m.finish_read req x = _ := he
  refine ⟨hn, ⟨_, congrArg Monitor.nodes he, fun n => ⟨rfl, rfl⟩⟩, ?_, ?_, ?_, ?_, ?_, ?_, ?_⟩
  · exact ht.trans (recounted_congr rfl _ _ _)
  · intro req' s h
    rw [he] at h
    simp only [Monitor.forget_read, get_erase] at h
    split at h
    · cases h
    · exact h
  all_goals rw [he]; rfl

theorem reset_root_turned {x : WatchId} {n : WatchNode} (hn : m.nodes[x]? = some n) :
    Turned m (m.reset_root x) x n true := by
  obtain ⟨_, _, hf⟩ := m.forget_state_shape n.state
  have ht : (m.reset_root x).toll = m.recounted n.scope n.state.is_rearm true := by
    have hn₁ : (m.forget_state n.state).nodes[x]? = some n := by
      rw [hf]
      exact hn
    have htoll : (m.forget_state n.state).toll = m.toll := by
      rw [hf]
      rfl
    refine Eq.trans ?_ ((set_state_toll (.arming true false) hn₁).trans
      (recounted_congr htoll _ _ _))
    simp only [Monitor.reset_root, state_of_node hn]
    cases n.state <;> rfl
  obtain ⟨_, _, _, he⟩ := Monitor.reset_root_eq hn
  refine ⟨hn, ⟨_, congrArg Monitor.nodes he, fun n => ⟨rfl, rfl⟩⟩, ht, ?_, ?_, ?_, ?_, ?_, ?_⟩ <;>
    rw [he]
  exact fun req s h => forget_state_latent n.state h

/-! ### What a turned node does to the entries -/

section turned
variable {x : WatchId} {n : WatchNode} {now : Bool}

theorem Turned.scope_of (h : Turned m m' x n now) : m'.scope_of = m.scope_of := by
  obtain ⟨f, hf, hk⟩ := h.nodes
  funext y
  unfold Monitor.scope_of
  rw [hf, get_modify]
  split
  · rw [Option.map_map]
    exact congrArg (Option.map · _) (funext fun n => (hk n).1)
  · rfl

theorem Turned.counted (h : Turned m m' x n now) (s : ScopeId) (y : WatchId) :
    m'.counted s y ↔ if y = x then n.scope = s ∧ now = true else m.counted s y := by
  obtain ⟨f, hf, hk⟩ := h.nodes
  unfold Monitor.counted
  rw [hf]
  by_cases hy : y = x
  · subst hy
    simp only [get_modify, if_true, h.live, Option.map_some, Option.some.injEq, exists_eq_left']
    rw [(hk n).1, (hk n).2]
  · simp only [get_modify, if_neg (Ne.symm hy), if_neg hy]

/-- The work of a turned node is the one entry it may take on. -/
theorem Turned.metered (h : Turned m m' x n now) (s : ScopeId) :
    Metered (Monitor.outstanding · s) (Monitor.coverage_work_count · s) m m' := by
  have others : ∀ e ∈ m'.outstanding s, (∀ y, e ≠ .rearm y) → e ∈ m.outstanding s := by
    intro e he hr
    cases e with
    | rearm y => exact absurd rfl (hr y)
    | hold y => exact ⟨h.held ▸ he.1, h.scope_of ▸ he.2⟩
    | latent req => exact h.latent req s he
    | marker y => exact ⟨h.adoptions ▸ he.1, h.scope_of ▸ he.2⟩
    | half cookie =>
      show m.pending_moves[(s, cookie)]? ≠ none
      rw [← h.halves]
      exact he
  have ht := h.toll
  have hcount : n.state.is_rearm = true → m.counted n.scope x := fun hr => ⟨n, h.live, rfl, hr⟩
  by_cases hgain : n.scope = s ∧ n.state.is_rearm = false ∧ now = true
  · obtain ⟨rfl, hwas, rfl⟩ := hgain
    refine .gain (.rearm x) ?_ ?_ ?_
    · rintro ⟨n', hn', -, hr⟩
      obtain rfl := Option.some.inj (h.live.symm.trans hn')
      rw [hwas] at hr
      cases hr
    · exact (h.counted _ x).mpr (by simp)
    · rw [hwas] at ht
      have hw := congrArg Prod.snd ht
      show m.coverage_work_count n.scope < m'.coverage_work_count n.scope
      simp only [Monitor.toll, Monitor.recounted] at hw
      simp only [Monitor.coverage_work_count, hw, get_insert, if_true, Option.getD_some]
      omega
  · refine .ebb (fun e he => ?_) ?_
    · by_cases hr : ∃ y, e = .rearm y
      · obtain ⟨y, rfl⟩ := hr
        have he := (h.counted s y).mp he
        split at he
        · next hy =>
          subst hy
          obtain ⟨rfl, rfl⟩ := he
          refine hcount ?_
          cases hw : n.state.is_rearm with
          | true => rfl
          | false => exact absurd ⟨rfl, hw, rfl⟩ hgain
        · exact he
      · exact others e he fun y hy => hr ⟨y, hy⟩
    · show m'.coverage_work_count s = m.coverage_work_count s
      have hw := congrArg Prod.snd ht
      simp only [Monitor.toll] at hw
      cases hwas : n.state.is_rearm <;> cases hnow : now <;>
        simp only [hwas, hnow, Monitor.recounted] at hw <;>
        simp only [Monitor.coverage_work_count, hw]
      rw [get_insert, if_neg]
      rintro rfl
      exact hgain ⟨rfl, hwas, hnow⟩

theorem Turned.tallied (h : Turned m m' x n now) (ht : Tallied m) : Tallied m' := by
  have hsc := h.scope_of
  refine ⟨?_, ?_, ?_⟩
  · have hp := congrArg Prod.fst h.toll
    have hx : m.counted n.scope x ↔ n.state.is_rearm = true := by
      refine ⟨?_, fun hr => ⟨n, h.live, rfl, hr⟩⟩
      rintro ⟨n', hn', -, hr⟩
      obtain rfl := Option.some.inj (h.live.symm.trans hn')
      exact hr
    have hoff : ∀ s, s ≠ n.scope → {y | m'.counted s y} = {y | m.counted s y} := by
      intro s hs
      ext y
      show m'.counted s y ↔ m.counted s y
      rw [h.counted]
      split
      · next hy =>
        subst hy
        refine ⟨fun hh => absurd hh.1.symm hs, ?_⟩
        rintro ⟨n', hn', hs', -⟩
        obtain rfl := Option.some.inj (h.live.symm.trans hn')
        exact absurd hs'.symm hs
      · rfl
    have hon : ∀ y, y ≠ x → (m'.counted n.scope y ↔ m.counted n.scope y) := by
      intro y hy
      rw [h.counted, if_neg hy]
    have hxx : m'.counted n.scope x ↔ now = true := by
      rw [h.counted, if_pos rfl]
      simp
    simp only [Monitor.toll] at hp
    cases hwas : n.state.is_rearm <;> cases hnow : now <;>
      simp only [hwas, hnow, Monitor.recounted, Monitor.count_up, Monitor.count_down,
        Bool.false_eq_true, iff_false, iff_true] at hp hx hxx <;> rw [hp]
    · refine ht.rearm.congr fun s => ?_
      by_cases hs : s = n.scope
      · subst hs
        ext y
        by_cases hy : y = x
        · subst hy
          exact iff_of_false hxx hx
        · exact hon y hy
      · exact hoff s hs
    · refine ht.rearm.up (x := x) hx ?_ hoff
      ext y
      by_cases hy : y = x
      · subst hy
        exact iff_of_true hxx (.inl rfl)
      · show m'.counted n.scope y ↔ y = x ∨ m.counted n.scope y
        rw [hon y hy, or_iff_right hy]
    · refine ht.rearm.down (x := x) hx ?_ hoff
      ext y
      by_cases hy : y = x
      · subst hy
        exact iff_of_false hxx fun hh => hh.2 rfl
      · show m'.counted n.scope y ↔ m.counted n.scope y ∧ ¬ y = x
        rw [hon y hy, and_iff_left hy]
    · refine ht.rearm.congr fun s => ?_
      by_cases hs : s = n.scope
      · subst hs
        ext y
        by_cases hy : y = x
        · subst hy
          exact iff_of_true hxx hx
        · exact hon y hy
      · exact hoff s hs
  · rw [h.held_by, h.held, hsc]
    exact ht.held
  · rw [h.adopting, h.adoptions, hsc]
    exact ht.adopting

end turned

/-! ### Effects that leave the stores alone -/

/-- What of a node the stores depend on. -/
def Monitor.standing (m : Monitor) (y : WatchId) : Option (ScopeId × Bool) :=
  (m.nodes[y]?).map fun n => (n.scope, n.state.is_rearm)

theorem counted_iff {s : ScopeId} {y : WatchId} :
    m.counted s y ↔ m.standing y = some (s, true) := by
  simp only [Monitor.counted, Monitor.standing, Option.map_eq_some_iff, Prod.mk.injEq]

theorem scope_of_standing (y : WatchId) : m.scope_of y = (m.standing y).map Prod.fst := by
  simp only [Monitor.scope_of, Monitor.standing, Option.map_map]
  rfl

theorem standing_modify {x : WatchId} {f : WatchNode → WatchNode}
    (hn : m'.nodes = m.nodes.modify x f)
    (hf : ∀ n, (f n).scope = n.scope ∧ (f n).state.is_rearm = n.state.is_rearm) :
    m'.standing = m.standing := by
  funext y
  unfold Monitor.standing
  rw [hn, get_modify]
  split
  · rw [Option.map_map]
    congr 1
    funext n
    exact Prod.ext (hf n).1 (hf n).2
  · rfl

/-- The stores, their counters and the clock are the same. -/
structure Steady (m m' : Monitor) : Prop where
  entries : ∀ s, m'.outstanding s = m.outstanding s
  toll : m'.toll = m.toll
  held_by : m'.held_by_scope = m.held_by_scope
  adopting : m'.adopting_by_scope = m.adopting_by_scope

/-- An entry stands where its own store has it. -/
theorem outstanding_congr (hs : m'.standing = m.standing) {e : Entry}
    (hh : ∀ y, e = .hold y → (y ∈ m'.held_sources ↔ y ∈ m.held_sources))
    (hl : ∀ req, e = .latent req → m'.latent_cold[req]? = m.latent_cold[req]?)
    (ha : ∀ y, e = .marker y → m'.pending_adoptions[y]? = m.pending_adoptions[y]?)
    (hp : ∀ (s : ScopeId) cookie, e = .half cookie →
      m'.pending_moves[(s, cookie)]? = m.pending_moves[(s, cookie)]?) (t : ScopeId) :
    e ∈ m'.outstanding t ↔ e ∈ m.outstanding t := by
  cases e with
  | rearm y =>
    show m'.counted t y ↔ m.counted t y
    rw [counted_iff, counted_iff, hs]
  | hold y =>
    show y ∈ m'.held_sources ∧ m'.scope_of y = _ ↔ y ∈ m.held_sources ∧ m.scope_of y = _
    rw [hh y rfl, scope_of_standing, scope_of_standing, hs]
  | latent req =>
    show m'.latent_cold[req]? = _ ↔ m.latent_cold[req]? = _
    rw [hl req rfl]
  | marker y =>
    show m'.pending_adoptions[y]? ≠ none ∧ m'.scope_of y = _ ↔
      m.pending_adoptions[y]? ≠ none ∧ m.scope_of y = _
    rw [ha y rfl, scope_of_standing, scope_of_standing, hs]
  | half cookie =>
    show m'.pending_moves[(t, cookie)]? ≠ none ↔ m.pending_moves[(t, cookie)]? ≠ none
    rw [hp t cookie rfl]

theorem Steady.of_eq (hs : m'.standing = m.standing) (hh : m'.held_sources = m.held_sources)
    (hl : m'.latent_cold = m.latent_cold) (ha : m'.pending_adoptions = m.pending_adoptions)
    (hp : m'.pending_moves = m.pending_moves) (ht : m'.toll = m.toll)
    (hb : m'.held_by_scope = m.held_by_scope) (had : m'.adopting_by_scope = m.adopting_by_scope) :
    Steady m m' := by
  refine ⟨fun s => ?_, ht, hb, had⟩
  ext e
  exact outstanding_congr hs (fun y _ => by rw [hh]) (fun req _ => by rw [hl])
    (fun y _ => by rw [ha]) (fun t cookie _ => by rw [hp]) s

theorem Steady.epoch (h : Steady m m') (s : ScopeId) :
    m'.coverage_work_count s = m.coverage_work_count s := by
  have hw := congrArg Prod.snd h.toll
  simp only [Monitor.toll] at hw
  simp only [Monitor.coverage_work_count, hw]

theorem Steady.metered (h : Steady m m') (s : ScopeId) :
    Metered (Monitor.outstanding · s) (Monitor.coverage_work_count · s) m m' := by
  exact .ebb (h.entries s).subset (h.epoch s)

theorem Steady.tallied (h : Steady m m') (ht : Tallied m) : Tallied m' := by
  have hp := congrArg Prod.fst h.toll
  simp only [Monitor.toll] at hp
  refine ⟨?_, ?_, ?_⟩
  · rw [hp]
    exact ht.rearm.congr fun s => Set.ext fun y => Set.ext_iff.mp (h.entries s) (.rearm y)
  · rw [h.held_by]
    exact ht.held.congr fun s => Set.ext fun y => Set.ext_iff.mp (h.entries s) (.hold y)
  · rw [h.adopting]
    exact ht.adopting.congr fun s => Set.ext fun y => Set.ext_iff.mp (h.entries s) (.marker y)

theorem Deliver.steady (h : Deliver m m') : Steady m m' := by
  rw [h.shape]
  exact .of_eq rfl rfl rfl rfl rfl rfl rfl rfl

theorem Ledger.steady (h : Ledger m m') : Steady m m' := by
  rw [h.shape]
  exact .of_eq rfl rfl rfl rfl rfl rfl rfl rfl

theorem discharge_steady (walk : Walk) : Steady m (m.discharge walk).1 := by
  rcases discharge_cases (m := m) walk with he | ⟨m₁, d₁, d₂⟩ | l
  · rw [he]
    exact .of_eq rfl rfl rfl rfl rfl rfl rfl rfl
  · have h₁ := d₁.steady
    have h₂ := d₂.steady
    exact ⟨fun s => (h₂.entries s).trans (h₁.entries s), h₂.toll.trans h₁.toll,
      h₂.held_by.trans h₁.held_by, h₂.adopting.trans h₁.adopting⟩
  · exact l.steady

/-! ### Effects that take an entry on -/

/-- One entry taken on, and the clock advanced. -/
structure Gained (m m' : Monitor) (s : ScopeId) (e : Entry) : Prop where
  fresh : e ∉ m.outstanding s
  entries : ∀ t, m'.outstanding t = if t = s then insert e (m.outstanding t) else m.outstanding t
  epochs : m'.coverage_work_epochs =
    m.coverage_work_epochs.insert s (m.coverage_work_count s + 1)

theorem Gained.metered {s : ScopeId} {e : Entry} (h : Gained m m' s e) (t : ScopeId) :
    Metered (Monitor.outstanding · t) (Monitor.coverage_work_count · t) m m' := by
  have he := h.entries t
  by_cases ht : t = s
  · subst ht
    rw [if_pos rfl] at he
    refine .gain e h.fresh ?_ ?_
    · show e ∈ m'.outstanding t
      rw [he]
      exact .inl rfl
    · show m.coverage_work_count t < m'.coverage_work_count t
      simp only [Monitor.coverage_work_count, h.epochs, get_insert, if_true, Option.getD_some]
      omega
  · rw [if_neg ht] at he
    refine .ebb he.subset ?_
    show m'.coverage_work_count t = m.coverage_work_count t
    simp only [Monitor.coverage_work_count, h.epochs, get_insert, if_neg (Ne.symm ht)]

/-- Whether an entry of a kind is among the entries after one was taken on. -/
theorem Gained.mem {s t : ScopeId} {e e' : Entry} (h : Gained m m' s e) :
    e' ∈ m'.outstanding t ↔ (t = s ∧ e' = e) ∨ e' ∈ m.outstanding t := by
  rw [h.entries t]
  by_cases ht : t = s
  · rw [if_pos ht, Set.mem_insert_iff]
    simp [ht]
  · rw [if_neg ht]
    simp [ht]

/-- A store whose kind the entry is not of reads as before. -/
theorem Gained.same {s : ScopeId} {e : Entry} {K : Type} (h : Gained m m' s e) (f : K → Entry)
    (hf : ∀ k, f k ≠ e) (t : ScopeId) :
    {k | f k ∈ m'.outstanding t} = {k | f k ∈ m.outstanding t} := by
  ext k
  show f k ∈ m'.outstanding t ↔ f k ∈ m.outstanding t
  rw [h.mem]
  exact or_iff_right fun hk => hf k hk.2

/-- The counter of the store that took the entry on. -/
theorem Gained.counts {s : ScopeId} {K : Type} {f : K → Entry} {k : K}
    (h : Gained m m' s (f k)) (hf : Function.Injective f) {counts : Map ScopeId Nat}
    (hc : Counts counts fun t => {k | f k ∈ m.outstanding t}) :
    Counts (Monitor.count_up counts s) fun t => {k | f k ∈ m'.outstanding t} := by
  refine hc.up (x := k) h.fresh ?_ ?_
  · ext k'
    show f k' ∈ m'.outstanding s ↔ k' = k ∨ f k' ∈ m.outstanding s
    rw [h.mem]
    simp [hf.eq_iff]
  · intro t ht
    ext k'
    show f k' ∈ m'.outstanding t ↔ f k' ∈ m.outstanding t
    rw [h.mem]
    simp [ht]

/-! ### Effects that let entries go -/

/-- No entry was taken on, and the clock stands. -/
structure Ebbed (m m' : Monitor) : Prop where
  entries : ∀ s, m'.outstanding s ⊆ m.outstanding s
  epochs : m'.coverage_work_epochs = m.coverage_work_epochs

theorem Ebbed.metered (h : Ebbed m m') (s : ScopeId) :
    Metered (Monitor.outstanding · s) (Monitor.coverage_work_count · s) m m' := by
  refine .ebb (h.entries s) ?_
  show m'.coverage_work_count s = m.coverage_work_count s
  simp only [Monitor.coverage_work_count, h.epochs]

/-- The counter of a store of watches that let one go, or that had it not. -/
theorem counts_release {P P' : WatchId → Prop} {sc sc' : WatchId → Option ScopeId}
    {counts : Map ScopeId Nat} {s : ScopeId} {k : WatchId} {held : Bool}
    (hc : Counts counts fun t => {x | P x ∧ sc x = some t}) (hk : held = true ↔ P k)
    (hs : P k → sc k = some s) (hP : ∀ x, P' x ↔ P x ∧ x ≠ k)
    (hsc : ∀ x, x ≠ k → sc' x = sc x) :
    Counts (if held then Monitor.count_down counts s 1 else counts)
      fun t => {x | P' x ∧ sc' x = some t} := by
  have hmem : ∀ t, {x | P' x ∧ sc' x = some t} = {x | P x ∧ sc x = some t} \ {k} := by
    intro t
    ext x
    show P' x ∧ sc' x = some t ↔ (P x ∧ sc x = some t) ∧ ¬ x = k
    rw [hP]
    constructor
    · rintro ⟨⟨hx, hne⟩, ht⟩
      exact ⟨⟨hx, hsc x hne ▸ ht⟩, hne⟩
    · rintro ⟨⟨hx, ht⟩, hne⟩
      exact ⟨⟨hx, hne⟩, (hsc x hne).trans ht⟩
  have off : ∀ t, ¬ (P k ∧ sc k = some t) →
      {x | P' x ∧ sc' x = some t} = {x | P x ∧ sc x = some t} := by
    intro t ht
    rw [hmem t]
    exact Set.sdiff_singleton_eq_self ht
  cases held with
  | true =>
    have hk := hk.mp rfl
    refine hc.down (x := k) ⟨hk, hs hk⟩ (hmem s) fun t ht => off t ?_
    rintro ⟨-, hkt⟩
    exact ht (Option.some.inj (hkt.symm.trans (hs hk)))
  | false =>
    refine hc.congr fun t => off t ?_
    rintro ⟨hP, -⟩
    exact Bool.noConfusion (hk.mpr hP)

/-! ### Every effect -/

theorem insert_node_toll (x : WatchId) (n : WatchNode) :
    (m.insert_node x n).toll = m.recounted n.scope false n.state.is_rearm := by
  have hb : ∀ m₁ : Monitor, ∃ bridge,
      (if n.state = .arming true false then m₁.bridge_fresh_rearm n.scope else m₁) =
        { m₁ with bridge := bridge } := by
    intro m₁
    split
    · exact m₁.fresh_rearm_shape n.scope
    · exact ⟨_, rfl⟩
  obtain ⟨bridge, hb⟩ := hb (if n.state.is_rearm then m.rearm_pending_inc n.scope else m)
  unfold Monitor.insert_node
  dsimp only
  rw [hb]
  cases n.state.is_rearm <;> rfl

theorem register_toll {scope : ScopeId} (mask : Interest) (caps : Capabilities)
    (hr : m.roots[scope]? = none) :
    (m.register_root_with_profile scope mask caps).1.toll = m.recounted scope false true := by
  have hb : ∀ m₁ : Monitor, (m₁.bridge_bootstrap scope).toll = m₁.toll := by
    intro m₁
    obtain ⟨bridge, he⟩ := m₁.bootstrap_shape scope
    rw [he]
    rfl
  unfold Monitor.register_root_with_profile
  rw [if_neg (by simp [contains_false_iff.mpr hr])]
  change (Monitor.bridge_bootstrap _ scope).toll = _
  rw [hb]
  change (Monitor.insert_node { m with
      watch_ids := ⟨m.watch_ids.next.succ⟩
      arm_attempts := ⟨m.arm_attempts.next.succ⟩
      scope_interests := m.scope_interests.insert scope mask
      scope_profiles := m.scope_profiles.insert scope caps } m.watch_ids.next
    { parent := none, name := none, scope, is_dir := true, attempt := m.arm_attempts.next,
      placement := m.placement_clock, moved_at := NEVER_MOVED, identity := none,
      state := .arming true false, children := ∅ }).toll = _
  rw [insert_node_toll]
  exact recounted_congr rfl _ _ _

/-- A dead watch is neither held nor marked. -/
theorem Valid.dead_idle (h : Valid ⟨m, g⟩) {x : WatchId} (hx : m.nodes[x]? = none) :
    x ∉ m.held_sources ∧ m.pending_adoptions[x]? = none := by
  refine ⟨fun hh => ?_, ?_⟩
  · obtain ⟨slot, hs, -⟩ := h.holds.held_off x hh
    rw [slot_dead hx] at hs
    cases hs
  · cases hp : m.pending_adoptions[x]? with
    | none => rfl
    | some marker => exact absurd hx (h.adopted.live x marker hp)

/-- A birth takes on at most the work of the node it births. -/
theorem born_mem {r : WatchId} {s : ScopeId} {now : Bool} (h : Valid ⟨m, g⟩)
    (hr : m.nodes[r]? = none)
    (hs : ∀ y, m'.standing y = if y = r then some (s, now) else m.standing y)
    (hh : m'.held_sources = m.held_sources) (hl : m'.latent_cold = m.latent_cold)
    (ha : m'.pending_adoptions = m.pending_adoptions) (hp : m'.pending_moves = m.pending_moves)
    (t : ScopeId) (e : Entry) :
    e ∈ m'.outstanding t ↔ (now = true ∧ t = s ∧ e = .rearm r) ∨ e ∈ m.outstanding t := by
  obtain ⟨hheld, hmark⟩ := h.dead_idle hr
  have hdead : m.standing r = none := by simp [Monitor.standing, hr]
  have hsc : ∀ y, y ≠ r → m'.scope_of y = m.scope_of y := by
    intro y hy
    rw [scope_of_standing, scope_of_standing, hs, if_neg hy]
  cases e with
  | rearm y =>
    show m'.counted t y ↔ _ ∨ m.counted t y
    rw [counted_iff, counted_iff, hs]
    by_cases hy : y = r
    · simp [hy, hdead, eq_comm, and_comm]
    · simp [hy]
  | hold y =>
    refine Iff.trans ?_ (or_iff_right (by rintro ⟨-, -, ⟨⟩⟩)).symm
    show y ∈ m'.held_sources ∧ m'.scope_of y = _ ↔ y ∈ m.held_sources ∧ m.scope_of y = _
    rw [hh]
    refine and_congr_right fun hy => ?_
    rw [hsc y fun he => hheld (he ▸ hy)]
  | latent req =>
    refine Iff.trans ?_ (or_iff_right (by rintro ⟨-, -, ⟨⟩⟩)).symm
    show m'.latent_cold[req]? = _ ↔ m.latent_cold[req]? = _
    rw [hl]
  | marker y =>
    refine Iff.trans ?_ (or_iff_right (by rintro ⟨-, -, ⟨⟩⟩)).symm
    show m'.pending_adoptions[y]? ≠ none ∧ m'.scope_of y = _ ↔
      m.pending_adoptions[y]? ≠ none ∧ m.scope_of y = _
    rw [ha]
    refine and_congr_right fun hy => ?_
    rw [hsc y fun he => hy (he ▸ hmark)]
  | half cookie =>
    refine Iff.trans ?_ (or_iff_right (by rintro ⟨-, -, ⟨⟩⟩)).symm
    show m'.pending_moves[(t, cookie)]? ≠ none ↔ m.pending_moves[(t, cookie)]? ≠ none
    rw [hp]

theorem register_gained {scope : ScopeId} (mask : Interest) (caps : Capabilities)
    (h : Valid ⟨m, g⟩) (hr : m.roots[scope]? = none) :
    Gained m (m.register_root_with_profile scope mask caps).1 scope (.rearm m.watch_ids.next) := by
  have ht := register_toll mask caps hr
  obtain ⟨node, _, _, _, -, -, hsc, -, -, hst, -, -, he⟩ := Monitor.register_eq mask caps hr
  have hdead := h.toInv.next_dead
  have hs : ∀ y, (m.register_root_with_profile scope mask caps).1.standing y =
      if y = m.watch_ids.next then some (scope, true) else m.standing y := by
    intro y
    simp only [Monitor.standing, he, get_insert]
    by_cases hy : y = m.watch_ids.next
    · subst hy
      simp [hsc, hst, NodeState.is_rearm]
    · rw [if_neg (Ne.symm hy), if_neg hy]
  refine ⟨?_, fun t => ?_, congrArg Prod.snd ht⟩
  · rintro ⟨n, hn, -⟩
    rw [hdead] at hn
    cases hn
  · ext e
    rw [born_mem h hdead hs (by rw [he]) (by rw [he]) (by rw [he]) (by rw [he])]
    by_cases ht : t = scope
    · simp [ht]
    · simp [ht]

/-- A birth into uncounted work leaves the stores alone. -/
theorem born_steady {r : WatchId} {s : ScopeId} (h : Valid ⟨m, g⟩) (hr : m.nodes[r]? = none)
    (hs : ∀ y, m'.standing y = if y = r then some (s, false) else m.standing y)
    (hh : m'.held_sources = m.held_sources) (hl : m'.latent_cold = m.latent_cold)
    (ha : m'.pending_adoptions = m.pending_adoptions) (hp : m'.pending_moves = m.pending_moves)
    (ht : m'.toll = m.toll) (hb : m'.held_by_scope = m.held_by_scope)
    (had : m'.adopting_by_scope = m.adopting_by_scope) : Steady m m' := by
  refine ⟨fun t => ?_, ht, hb, had⟩
  ext e
  rw [born_mem h hr hs hh hl ha hp]
  simp

theorem register_tallied {scope : ScopeId} {mask : Interest} {caps : Capabilities}
    (h : Valid ⟨m, g⟩) (hr : m.roots[scope]? = none) (ht : Tallied m) :
    Tallied (m.register_root_with_profile scope mask caps).1 := by
  have hg := register_gained mask caps h hr
  have htoll := congrArg Prod.fst (register_toll mask caps hr)
  obtain ⟨_, _, _, _, -, -, -, -, -, -, -, -, he⟩ := Monitor.register_eq mask caps hr
  refine ⟨?_, ?_, ?_⟩
  · have hp : (m.register_root_with_profile scope mask caps).1.rearm_pending =
      Monitor.count_up m.rearm_pending scope := htoll
    rw [hp]
    exact hg.counts (fun a b hab => by cases hab; rfl) ht.rearm
  · rw [show (m.register_root_with_profile scope mask caps).1.held_by_scope = m.held_by_scope by
      rw [he]]
    exact ht.held.congr (hg.same .hold nofun)
  · rw [show (m.register_root_with_profile scope mask caps).1.adopting_by_scope =
      m.adopting_by_scope by rw [he]]
    exact ht.adopting.congr (hg.same .marker nofun)

/-- What one entry taken on into one store amounts to. -/
theorem Gained.of_mem {s : ScopeId} {e : Entry} (hf : e ∉ m.outstanding s)
    (hm : ∀ t e', e' ∈ m'.outstanding t ↔ (t = s ∧ e' = e) ∨ e' ∈ m.outstanding t)
    (hw : m'.coverage_work_epochs =
      m.coverage_work_epochs.insert s (m.coverage_work_count s + 1)) : Gained m m' s e := by
  refine ⟨hf, fun t => ?_, hw⟩
  ext e'
  rw [hm]
  by_cases ht : t = s
  · simp [ht]
  · simp [ht]

theorem Steady.gained {m₁ : Monitor} {s : ScopeId} {e : Entry} (h : Steady m m₁)
    (hg : Gained m₁ m' s e) : Gained m m' s e := by
  have hw : m₁.coverage_work_epochs = m.coverage_work_epochs := congrArg Prod.snd h.toll
  refine ⟨h.entries s ▸ hg.fresh, fun t => ?_, ?_⟩
  · rw [hg.entries t, h.entries t]
  · rw [hg.epochs, hw, h.epoch]

/-- A source taken off its slot is one more hold. -/
theorem hold_gained {scope : ScopeId} {src : WatchId} {slot : WatchId × Segment} (h : Inv ⟨m, g⟩)
    (hp : m.slot_of src = some slot) (hs : m.child_index[slot]? = some src)
    (hsc : m.scope_of src = some scope) :
    Gained m (m.take_source scope src) scope (.hold src) ∧
      (Tallied m → Tallied (m.take_source scope src)) := by
  have hh := h.unheld hp hs
  obtain ⟨parent, name⟩ := slot
  obtain ⟨_, _, f, -, hf, he⟩ := Monitor.take_source_eq scope hp hh
  have hst : (m.take_source scope src).standing = m.standing := by
    refine standing_modify (congrArg Monitor.nodes he) fun n => ?_
    exact ⟨congrArg Place.scope (hf n).1, by rw [(hf n).2.2.1]⟩
  have hg : Gained m (m.take_source scope src) scope (.hold src) := by
    refine .of_mem (fun hm => hh hm.1) (fun t e => ?_) (by rw [he])
    by_cases hk : ∃ y, e = .hold y
    · obtain ⟨y, rfl⟩ := hk
      show y ∈ (m.take_source scope src).held_sources ∧ _ ↔ _ ∨ y ∈ m.held_sources ∧ _
      rw [scope_of_standing, hst, ← scope_of_standing,
        show (m.take_source scope src).held_sources = m.held_sources.insert src by rw [he],
        mem_insert_iff]
      constructor
      · rintro ⟨rfl | hy, hsy⟩
        · exact .inl ⟨Option.some.inj (hsy.symm.trans hsc), rfl⟩
        · exact .inr ⟨hy, hsy⟩
      · rintro (⟨rfl, ⟨⟩⟩ | ⟨hy, hsy⟩)
        · exact ⟨.inl rfl, hsc⟩
        · exact ⟨.inr hy, hsy⟩
    · rw [or_iff_right fun hh => hk ⟨src, hh.2⟩]
      exact outstanding_congr hst (fun y hy => absurd ⟨y, hy⟩ hk) (fun _ _ => by rw [he])
        (fun _ _ => by rw [he]) (fun _ _ _ => by rw [he]) t
  refine ⟨hg, fun ht => ⟨?_, ?_, ?_⟩⟩
  · rw [show (m.take_source scope src).rearm_pending = m.rearm_pending by rw [he]]
    exact ht.rearm.congr (hg.same .rearm nofun)
  · rw [show (m.take_source scope src).held_by_scope = Monitor.count_up m.held_by_scope scope by
      rw [he]]
    exact hg.counts (fun a b hab => by cases hab; rfl) ht.held
  · rw [show (m.take_source scope src).adopting_by_scope = m.adopting_by_scope by rw [he]]
    exact ht.adopting.congr (hg.same .marker nofun)

/-- A recorded marker is one more adoption. -/
theorem marker_gained (name : Segment) (adopted : WatchId) (identity : Identity)
    {parent : WatchId} {scope : ScopeId} (hm : m.pending_adoptions[parent]? = none)
    (hsc : m.scope_of parent = some scope) :
    Gained m (m.record_adoption_marker parent name adopted identity scope) scope
        (.marker parent) ∧
      (Tallied m → Tallied (m.record_adoption_marker parent name adopted identity scope)) := by
  have hg : Gained m (m.record_adoption_marker parent name adopted identity scope) scope
      (.marker parent) := by
    refine .of_mem (fun hx => hx.1 hm) (fun t e => ?_) rfl
    by_cases hk : ∃ y, e = .marker y
    · obtain ⟨y, rfl⟩ := hk
      show (m.pending_adoptions.insert parent _)[y]? ≠ none ∧ m.scope_of y = _ ↔
        _ ∨ m.pending_adoptions[y]? ≠ none ∧ m.scope_of y = _
      rw [get_insert]
      by_cases hy : parent = y
      · subst hy
        simp [hm, hsc, eq_comm]
      · rw [if_neg hy, or_iff_right]
        rintro ⟨-, ⟨⟩⟩
        exact hy rfl
    · rw [or_iff_right fun hh => hk ⟨parent, hh.2⟩]
      exact outstanding_congr (by rfl) (fun _ _ => by rfl) (fun _ _ => by rfl)
        (fun y hy => absurd ⟨y, hy⟩ hk) (fun _ _ _ => by rfl) t
  exact ⟨hg, fun ht => ⟨ht.rearm.congr (hg.same .rearm nofun), ht.held.congr (hg.same .hold nofun),
    hg.counts (fun a b hab => by cases hab; rfl) ht.adopting⟩⟩

/-- A half parked under a free key is one more half; under a taken one it
    displaces the half that stood there. -/
theorem park_followed (scope : ScopeId) (cookie : MoveCookie) (pending : PendingMove) :
    (Gained m (m.park_pending_move scope cookie pending).1 scope (.half cookie) ∨
      Ebbed m (m.park_pending_move scope cookie pending).1) ∧
      (Tallied m → Tallied (m.park_pending_move scope cookie pending).1) := by
  have hmem : ∀ t e, e ∈ (m.park_pending_move scope cookie pending).1.outstanding t ↔
      (t = scope ∧ e = .half cookie) ∨ e ∈ m.outstanding t := by
    intro t e
    obtain ⟨_, he⟩ := m.park_shape scope cookie pending
    by_cases hk : ∃ ck, e = .half ck
    · obtain ⟨ck, rfl⟩ := hk
      show (m.park_pending_move scope cookie pending).1.pending_moves[(t, ck)]? ≠ none ↔
        _ ∨ m.pending_moves[(t, ck)]? ≠ none
      rw [he]
      simp only [get_insert, Prod.mk.injEq, Entry.half.injEq]
      by_cases hc : scope = t ∧ cookie = ck
      · rw [if_pos hc]
        simp [hc.1, hc.2]
      · rw [if_neg hc, or_iff_right fun hh => hc ⟨hh.1.symm, hh.2.symm⟩]
    · rw [or_iff_right fun hh => hk ⟨cookie, hh.2⟩]
      rw [he]
      exact outstanding_congr (by rfl) (fun _ _ => by rfl) (fun _ _ => by rfl)
        (fun _ _ => by rfl) (fun _ ck hy => absurd ⟨ck, hy⟩ hk) t
  refine ⟨?_, fun ht => ?_⟩
  · cases hd : m.pending_moves[(scope, cookie)]? with
    | none =>
      refine .inl (.of_mem (fun hx => hx hd) hmem ?_)
      simp only [Monitor.park_pending_move, hd]
      rfl
    | some half =>
      refine .inr ⟨fun t e he => ?_, ?_⟩
      · rcases (hmem t e).mp he with ⟨rfl, rfl⟩ | he
        · show m.pending_moves[(t, cookie)]? ≠ none
          rw [hd]
          exact Option.some_ne_none half
        · exact he
      · simp only [Monitor.park_pending_move, hd]
        rfl
  · obtain ⟨_, he⟩ := m.park_shape scope cookie pending
    rw [he]
    exact ⟨ht.rearm, ht.held, ht.adopting⟩

/-- A directory's outstanding read asked for again; a cold one stays owed. -/
theorem redirty_followed {dir : WatchId} {scope : ScopeId} {req : ReqId} {kind : EnumKind}
    {attempts : Nat} {dirty : Bool} (hr : Reads m)
    (hs : m.state_of dir = some (.enumerating req kind attempts dirty))
    (hsc : m.scope_of dir = some scope) :
    (∀ s, Metered (Monitor.outstanding · s) (Monitor.coverage_work_count · s) m
        (m.redirty dir scope req kind)) ∧
      (Tallied m → Tallied (m.redirty dir scope req kind)) := by
  obtain ⟨n, hn, hst⟩ := Option.map_eq_some_iff.mp hs
  cases kind with
  | rearm reprove =>
    have ht := set_state_turned (.enumerating req (.rearm reprove) 0 true) hn
    exact ⟨fun s => ht.metered s, ht.tallied⟩
  | cold =>
    -- the state itself is no counted work, before and after
    have hsteady : Steady m (m.set_state dir (.enumerating req .cold 0 true)) := by
      have htoll := set_state_toll (.enumerating req .cold 0 true) hn
      rw [hst] at htoll
      obtain ⟨_, _, _, he⟩ := m.set_state_shape dir (.enumerating req .cold 0 true)
      have hstand : (m.set_state dir (.enumerating req .cold 0 true)).standing = m.standing := by
        funext y
        simp only [Monitor.standing, he, get_modify]
        split
        · next hy =>
          subst hy
          simp [hn, hst, NodeState.is_rearm]
        · rfl
      exact .of_eq hstand (by rw [he]) (by rw [he]) (by rw [he]) (by rw [he]) htoll (by rw [he])
        (by rw [he])
    have hlatent : (m.set_state dir (.enumerating req .cold 0 true)).latent_cold =
        m.latent_cold := by
      obtain ⟨_, _, _, he⟩ := m.set_state_shape dir (.enumerating req .cold 0 true)
      rw [he]
    show (∀ s, Metered (Monitor.outstanding · s) (Monitor.coverage_work_count · s) m
        ((m.set_state dir (.enumerating req .cold 0 true)).latent_cold_insert req scope)) ∧
      (Tallied m →
        Tallied ((m.set_state dir (.enumerating req .cold 0 true)).latent_cold_insert req scope))
    generalize m.set_state dir (.enumerating req .cold 0 true) = m₁ at hsteady hlatent ⊢
    cases hl : m₁.latent_cold[req]? with
    | some s =>
      -- the entry that stands there is of the same scope
      have hs' : s = scope := by
        obtain ⟨x, _, hx, hxs, -⟩ := hr.latent req s (hlatent ▸ hl)
        obtain rfl := Option.some.inj ((hr.reading _ _ _ _ _ hs).symm.trans hx)
        exact Option.some.inj (hxs.symm.trans hsc)
      subst hs'
      have he : m₁.latent_cold_insert req s = m₁ := by
        have hins : m₁.latent_cold.insert req s = m₁.latent_cold := by
          refine ExtTreeMap.ext_getElem? fun a => ?_
          rw [get_insert]
          split
          · next hy => rw [← hy, hl]
          · rfl
        unfold Monitor.latent_cold_insert
        rw [if_pos (contains_iff.mpr ⟨s, hl⟩), hins]
      rw [he]
      exact ⟨hsteady.metered, hsteady.tallied⟩
    | none =>
      have he : m₁.latent_cold_insert req scope =
          { m₁ with
            latent_cold := m₁.latent_cold.insert req scope
            coverage_work_epochs :=
              m₁.coverage_work_epochs.insert scope (m₁.coverage_work_count scope + 1) } := by
        unfold Monitor.latent_cold_insert
        rw [if_neg (by rw [contains_false_iff.mpr hl]; simp)]
        rfl
      have hg : Gained m₁ (m₁.latent_cold_insert req scope) scope (.latent req) := by
        refine .of_mem (fun hx => by rw [show m₁.latent_cold[req]? = _ from hx] at hl; cases hl)
          (fun t e => ?_) (by rw [he])
        rw [he]
        by_cases hk : ∃ r, e = .latent r
        · obtain ⟨r, rfl⟩ := hk
          show (m₁.latent_cold.insert req scope)[r]? = some t ↔ _ ∨ m₁.latent_cold[r]? = some t
          rw [get_insert]
          by_cases hr : req = r
          · subst hr
            simp [hl, eq_comm]
          · rw [if_neg hr, or_iff_right]
            rintro ⟨-, ⟨⟩⟩
            exact hr rfl
        · rw [or_iff_right fun hh => hk ⟨req, hh.2⟩]
          exact outstanding_congr (by rfl) (fun _ _ => by rfl) (fun r hy => absurd ⟨r, hy⟩ hk)
            (fun _ _ => by rfl) (fun _ _ _ => by rfl) t
      refine ⟨(hsteady.gained hg).metered, fun ht => ?_⟩
      have ht₁ := hsteady.tallied ht
      rw [he]
      exact ⟨ht₁.rearm, ht₁.held, ht₁.adopting⟩

/-- Halves that leave the store. -/
theorem halves_ebbed (halves : Map PendingKey PendingMove)
    (hs : ∀ k : PendingKey, halves[k]? ≠ none → m.pending_moves[k]? ≠ none) :
    Ebbed m { m with pending_moves := halves } ∧
      (Tallied m → Tallied { m with pending_moves := halves }) := by
  refine ⟨⟨fun s e he => ?_, rfl⟩, fun ht => ⟨ht.rearm, ht.held, ht.adopting⟩⟩
  cases e with
  | half cookie => exact hs (s, cookie) he
  | rearm y => exact he
  | hold y => exact he
  | latent req => exact he
  | marker y => exact he

/-- A hold let go, if it stood. -/
theorem release_followed {scope : ScopeId} {src : WatchId} (h : Valid ⟨m, g⟩)
    (ha : Anchored ⟨m, g⟩ src scope) :
    Ebbed m (m.release_hold scope src).1 ∧
      (Tallied m → Tallied (m.release_hold scope src).1) := by
  have hby : (m.release_hold scope src).1.held_by_scope =
      if m.held_sources.contains src then Monitor.count_down m.held_by_scope scope 1
      else m.held_by_scope := by
    unfold Monitor.release_hold
    split <;> rfl
  obtain ⟨_, _, he⟩ := m.release_hold_shape scope src
  have hheld : (m.release_hold scope src).1.held_sources = m.held_sources.erase src := by rw [he]
  have hsc : (m.release_hold scope src).1.scope_of = m.scope_of := by rw [he]; rfl
  have hin : ∀ s, m.scope_of src = some s → s = scope := by
    intro s hs
    obtain ⟨n, hn, rfl⟩ := Monitor.scope_of_eq_some.mp hs
    exact ha.scope n hn
  have hlive : src ∈ m.held_sources → m.nodes[src]? ≠ none :=
    fun hs hd => (h.dead_idle hd).1 hs
  refine ⟨⟨fun s e hm => ?_, by rw [he]⟩, fun ht => ⟨?_, ?_, ?_⟩⟩
  · by_cases hk : ∃ y, e = .hold y
    · obtain ⟨y, rfl⟩ := hk
      refine ⟨?_, hsc ▸ hm.2⟩
      have := hheld ▸ hm.1
      exact (mem_erase_iff.mp this).2
    · rw [he] at hm
      exact (outstanding_congr (by rfl) (fun y hy => absurd ⟨y, hy⟩ hk) (fun _ _ => by rfl)
        (fun _ _ => by rfl) (fun _ _ _ => by rfl) s).mp hm
  · rw [he]
    exact ht.rearm
  · rw [hby, hheld, hsc]
    refine counts_release ht.held (k := src) ExtTreeSet.mem_iff_contains.symm ?_ ?_ fun _ _ => rfl
    · intro hsrc
      obtain ⟨s, hs⟩ := scope_live (hlive hsrc)
      rw [hs, hin s hs]
    · intro x
      rw [mem_erase_iff]
      exact and_comm.trans (and_congr_right fun _ => ne_comm)
  · rw [he]
    exact ht.adopting

/-- A marker let go, if it stood. -/
theorem take_marker_followed {scope : ScopeId} {parent : WatchId} (h : Valid ⟨m, g⟩)
    (ha : Anchored ⟨m, g⟩ parent scope) :
    Ebbed m (m.take_adoption_marker parent scope).1 ∧
      (Tallied m → Tallied (m.take_adoption_marker parent scope).1) := by
  have he := (m.take_adoption_marker_eq parent scope).1
  rw [he]
  have hlive : m.pending_adoptions[parent]? ≠ none → m.nodes[parent]? ≠ none :=
    fun hs hd => hs (h.dead_idle hd).2
  refine ⟨⟨fun s e hm => ?_, rfl⟩, fun ht => ⟨ht.rearm, ht.held, ?_⟩⟩
  · by_cases hk : ∃ y, e = .marker y
    · obtain ⟨y, rfl⟩ := hk
      obtain ⟨hy, hs⟩ := hm
      refine ⟨fun hd => hy ?_, hs⟩
      dsimp only
      rw [get_erase, hd]
      simp
    · exact (outstanding_congr (by rfl) (fun _ _ => by rfl) (fun _ _ => by rfl)
        (fun y hy => absurd ⟨y, hy⟩ hk) (fun _ _ _ => by rfl) s).mp hm
  · refine counts_release ht.adopting (k := parent) ?_ ?_ ?_ fun _ _ => rfl
    · rw [contains_iff, Option.ne_none_iff_exists']
    · intro hp
      obtain ⟨s, hs⟩ := scope_live (hlive hp)
      obtain ⟨n, hn, rfl⟩ := Monitor.scope_of_eq_some.mp hs
      rw [hs, ha.scope n hn]
    · intro x
      dsimp only
      rw [get_erase]
      by_cases hx : parent = x
      · simp [hx]
      · simp [hx, Ne.symm hx]

/-- A removed node takes its entries with it. -/
theorem remove_followed {id : WatchId} {node : WatchNode} (erased : ErasedCovers)
    (hn : m.nodes[id]? = some node) :
    Ebbed m (m.remove_node id node erased).1 ∧
      (Tallied m → Tallied (m.remove_node id node erased).1) := by
  obtain ⟨_, _, _, -, -, he, -⟩ := m.remove_node_eq id node erased
  have hst : ∀ y, (m.remove_node id node erased).1.standing y =
      if y = id then none else m.standing y := by
    intro y
    simp only [Monitor.standing, he, Monitor.get_unlinked_nodes]
    split
    · rfl
    · split
      · rw [Option.map_map]
        rfl
      · rfl
  have hsc : ∀ y, y ≠ id → (m.remove_node id node erased).1.scope_of y = m.scope_of y := by
    intro y hy
    rw [scope_of_standing, scope_of_standing, hst, if_neg hy]
  have hgone : (m.remove_node id node erased).1.scope_of id = none := by
    rw [scope_of_standing, hst, if_pos rfl]
    rfl
  have hheld : (m.remove_node id node erased).1.held_sources = m.held_sources.erase id := by
    rw [he]
  have hmark : (m.remove_node id node erased).1.pending_adoptions =
      m.pending_adoptions.erase id := by rw [he]
  refine ⟨⟨fun s e hm => ?_, by rw [he]⟩, fun ht => ⟨?_, ?_, ?_⟩⟩
  · cases e with
    | rearm y =>
      have hm := counted_iff.mp hm
      rw [hst] at hm
      split at hm
      · cases hm
      · exact counted_iff.mpr hm
    | hold y =>
      obtain ⟨hy, hs⟩ := hm
      rw [hheld, mem_erase_iff] at hy
      exact ⟨hy.2, hsc y (Ne.symm hy.1) ▸ hs⟩
    | latent req =>
      refine forget_state_latent node.state ?_
      have hm : (m.remove_node id node erased).1.latent_cold[req]? = some s := hm
      rwa [he] at hm
    | marker y =>
      obtain ⟨hy, hs⟩ := hm
      rw [hmark, get_erase] at hy
      split at hy
      · exact absurd rfl hy
      · next hne => exact ⟨hy, hsc y (Ne.symm hne) ▸ hs⟩
    | half cookie =>
      have hm : (m.remove_node id node erased).1.pending_moves[(s, cookie)]? ≠ none := hm
      rwa [he] at hm
  · have hby : (m.remove_node id node erased).1.rearm_pending =
        if node.state.is_rearm then Monitor.count_down m.rearm_pending node.scope 1
        else m.rearm_pending := by rw [he]
    rw [hby]
    have hcount : ∀ (n : Monitor) s x, n.counted s x ↔
        (n.standing x).any (·.2) = true ∧ n.scope_of x = some s := by
      intro n s x
      rw [counted_iff, scope_of_standing]
      cases n.standing x with
      | none => simp
      | some p =>
        obtain ⟨a, b⟩ := p
        simp [and_comm]
    have hr := ht.rearm
    simp only [hcount] at hr ⊢
    refine counts_release hr (k := id) ?_ ?_ ?_ fun x hx => hsc x hx
    · simp [Monitor.standing, hn]
    · intro _
      exact scope_of_node hn
    · intro x
      rw [hst]
      by_cases hx : x = id
      · simp [hx]
      · simp [hx]
  · have hby : (m.remove_node id node erased).1.held_by_scope =
        if m.held_sources.contains id then Monitor.count_down m.held_by_scope node.scope 1
        else m.held_by_scope := by rw [he]
    rw [hby, hheld]
    refine counts_release ht.held (k := id) ExtTreeSet.mem_iff_contains.symm
      (fun _ => scope_of_node hn) ?_ fun x hx => hsc x hx
    intro x
    rw [mem_erase_iff]
    exact and_comm.trans (and_congr_right fun _ => ne_comm)
  · have hby : (m.remove_node id node erased).1.adopting_by_scope =
        if m.pending_adoptions.contains id then Monitor.count_down m.adopting_by_scope node.scope 1
        else m.adopting_by_scope := by rw [he]
    rw [hby, hmark]
    refine counts_release ht.adopting (k := id) ?_ (fun _ => scope_of_node hn) ?_
      fun x hx => hsc x hx
    · rw [contains_iff, Option.ne_none_iff_exists']
    · intro x
      rw [get_erase]
      by_cases hx : id = x
      · simp [hx]
      · simp [hx, Ne.symm hx]

/-- The counters and the clock of a scope follow its stores. -/
structure Followed (m m' : Monitor) : Prop where
  metered : ∀ s, Metered (Monitor.outstanding · s) (Monitor.coverage_work_count · s) m m'
  tallied : Tallied m → Tallied m'

theorem Steady.followed (h : Steady m m') : Followed m m' := ⟨h.metered, h.tallied⟩

/-- A Monitor whose other fields changed. -/
theorem aside_followed (hn : m'.nodes = m.nodes) (hh : m'.held_sources = m.held_sources)
    (hl : m'.latent_cold = m.latent_cold) (ha : m'.pending_adoptions = m.pending_adoptions)
    (hp : m'.pending_moves = m.pending_moves) (ht : m'.toll = m.toll)
    (hb : m'.held_by_scope = m.held_by_scope) (had : m'.adopting_by_scope = m.adopting_by_scope) :
    Followed m m' :=
  (Steady.of_eq (by unfold Monitor.standing; rw [hn]) hh hl ha hp ht hb had).followed

/-- A node that changed in nothing the stores depend on. -/
theorem modify_followed {x : WatchId} {f : WatchNode → WatchNode}
    (hn : m'.nodes = m.nodes.modify x f)
    (hf : ∀ n, (f n).scope = n.scope ∧ (f n).state.is_rearm = n.state.is_rearm)
    (hh : m'.held_sources = m.held_sources) (hl : m'.latent_cold = m.latent_cold)
    (ha : m'.pending_adoptions = m.pending_adoptions) (hp : m'.pending_moves = m.pending_moves)
    (ht : m'.toll = m.toll) (hb : m'.held_by_scope = m.held_by_scope)
    (had : m'.adopting_by_scope = m.adopting_by_scope) : Followed m m' :=
  (Steady.of_eq (standing_modify hn hf) hh hl ha hp ht hb had).followed

theorem Turned.followed {x : WatchId} {n : WatchNode} {now : Bool} (h : Turned m m' x n now) :
    Followed m m' := ⟨h.metered, h.tallied⟩

theorem Followed.rfl : Followed m m := aside_followed (Eq.refl _) (Eq.refl _) (Eq.refl _) (Eq.refl _)
  (Eq.refl _) (Eq.refl _) (Eq.refl _) (Eq.refl _)

theorem Work.followed {k : Option Answer} (hr : Reads m) (w : Work k m m') : Followed m m' := by
  cases w with
  | @read dir kind attempts =>
    cases hn : m.nodes[dir]? with
    | none =>
      simp only [Monitor.queue_enumerate, Monitor.state_of, hn, Option.map_none]
      exact .rfl
    | some n => exact (queue_enumerate_turned kind attempts hn).followed
  | @redirty dir scope req kind attempts dirty hs hsc =>
    obtain ⟨h₁, h₂⟩ := redirty_followed hr hs hsc
    exact ⟨h₁, h₂⟩
  | @promote watch rearm reprove hs =>
    obtain ⟨n, hn, -⟩ := Option.map_eq_some_iff.mp hs
    exact (set_state_turned _ hn).followed
  | @overtake watch =>
    refine modify_followed rfl (fun n => ?_) rfl rfl rfl rfl rfl rfl rfl
    cases hs : n.state with
    | enumerating req kind attempts dirty =>
      refine ⟨rfl, ?_⟩
      cases kind <;> rfl
    | live => simp [hs]
    | arming => simp [hs]
  | @reinstall watch =>
    cases hn : m.nodes[watch]? with
    | none =>
      simp only [Monitor.start_reinstall, Monitor.scope_of, hn, Option.map_none]
      exact .rfl
    | some n => exact (start_reinstall_turned hn).followed
  | arm => exact modify_followed rfl (fun n => ⟨rfl, rfl⟩) rfl rfl rfl rfl rfl rfl rfl

theorem Edit.followed {c c' : Moment} (h : Valid c) (e : Edit c c') : Followed c.m c'.m := by
  cases e with
  | @register m g scope mask caps hw hr =>
    exact ⟨(register_gained _ _ h hr).metered, register_tallied h hr⟩
  | @plant m g parent scope name is_dir identity hw hp ha hs =>
    have hpn : parent ≠ m.watch_ids.next := by
      rintro rfl
      exact Nat.lt_irrefl _ ha.minted
    have he := Monitor.plant_eq scope name is_dir identity hpn
    refine (born_steady (s := scope) h h.toInv.next_dead ?_ ?_ ?_ ?_ ?_ ?_ ?_ ?_).followed
    · intro y
      simp only [Monitor.standing, he, get_modify, get_insert]
      by_cases hy : y = m.watch_ids.next
      · subst hy
        simp [hpn, Monitor.sprout, NodeState.is_rearm]
      · simp only [if_neg (Ne.symm hy), if_neg hy]
        split
        · rw [Option.map_map]
          rfl
        · rfl
    all_goals rw [he]
    rfl
  | reserve => exact aside_followed rfl rfl rfl rfl rfl rfl rfl rfl
  | @graft m g scope reserved last old_root hw ht hr hs hd =>
    obtain ⟨nodes, he, hnodes⟩ := m.graft_eq scope reserved last old_root
    refine (born_steady (s := scope) h (h.spare.dead _ hs) ?_ ?_ ?_ ?_ ?_ ?_ ?_ ?_).followed
    · intro y
      simp only [Monitor.standing, he, hnodes, Monitor.get_attached, Monitor.stocked, get_insert,
        Option.map_map]
      by_cases hy : y = reserved
      · subst hy
        simp [Monitor.stock, NodeState.is_rearm]
      · rw [if_neg (Ne.symm hy), if_neg hy]
        rfl
    all_goals rw [he]
    rfl
  | @hold m g scope src parent name hw ht hp hs hsc =>
    obtain ⟨h₁, h₂⟩ := hold_gained h.toInv hp hs hsc
    exact ⟨h₁.metered, h₂⟩
  | @rekey m g child new_parent new_name =>
    obtain ⟨nodes, he⟩ := m.rekey_eq child new_parent new_name
    refine (Steady.of_eq ?_ ?_ ?_ ?_ ?_ ?_ ?_ ?_).followed
    · funext y
      simp only [Monitor.standing, Monitor.get_rekeyed, Monitor.get_attached, Option.map_map]
      rfl
    all_goals rw [he]
    rfl
  | uproot => exact aside_followed rfl rfl rfl rfl rfl rfl rfl rfl
  | @remove m g walk id stack node hw hs hn =>
    obtain ⟨h₁, h₂⟩ := remove_followed walk.erased hn
    exact ⟨h₁.metered, h₂⟩

theorem Marking.followed {c c' : Moment} (h : Valid c) (e : Marking c c') :
    Followed c.m c'.m := by
  cases e with
  | @record_marker m g parent name adopted identity scope node hn hs hst hd hds hm =>
    obtain ⟨h₁, h₂⟩ := marker_gained name adopted identity hm
      ((scope_of_node hn).trans (congrArg some hs))
    exact ⟨h₁.metered, h₂⟩
  | @stage m g dir scope =>
    obtain ⟨_, _, he, -⟩ := stage_adoption_eq (m := m) dir scope
    rw [he]
    exact aside_followed rfl rfl rfl rfl rfl rfl rfl rfl
  | @take_marker m g parent scope hs =>
    obtain ⟨h₁, h₂⟩ := take_marker_followed h hs
    exact ⟨h₁.metered, h₂⟩
  | unstage => exact aside_followed rfl rfl rfl rfl rfl rfl rfl rfl

/-- An effect that forgets nothing of the scope is metered, and every effect
    keeps the counters right. -/
theorem Effect.followed {c c' : Moment} (h : Valid c) (e : Effect c c') (s : ScopeId) :
    (Metered (Monitor.outstanding · s) (Monitor.coverage_work_count · s) c.m c'.m ∨
      (c.m.roots[s]? = none ∧ c.g.start.roots[s]? ≠ none)) ∧
    (Tallied c.m → Tallied c'.m) := by
  have both : Followed c.m c'.m → (Metered (Monitor.outstanding · s)
      (Monitor.coverage_work_count · s) c.m c'.m ∨
      (c.m.roots[s]? = none ∧ c.g.start.roots[s]? ≠ none)) ∧ (Tallied c.m → Tallied c'.m) :=
    fun hf => ⟨.inl (hf.metered s), hf.tallied⟩
  cases e with
  | edit e => exact both (e.followed h)
  | mark e => exact both (e.followed h)
  | deliver d => exact both d.steady.followed
  | ledger l => exact both l.steady.followed
  | work w => exact both (w.followed h.reads)
  | @ask m g parent scope name =>
    obtain ⟨_, _, _, _, _, -, -, -, he⟩ := queue_stat_eq (m := m) parent scope name
    refine both ?_
    rw [he]
    exact aside_followed rfl rfl rfl rfl rfl rfl rfl rfl
  | @ack m g id attempt ack rearm reprove ha ho hc hat hs =>
    obtain ⟨n, hn, -⟩ := Option.map_eq_some_iff.mp hs
    exact both (set_state_turned .live hn).followed
  | @finish m g req dir kind attempts dirty listing ha hs =>
    obtain ⟨n, hn, -⟩ := Option.map_eq_some_iff.mp hs
    exact both (finish_read_turned hn).followed
  | @reset m g root =>
    cases hn : m.nodes[root]? with
    | none =>
      refine both ?_
      rw [Monitor.reset_root_dead hn]
      exact aside_followed rfl rfl rfl rfl rfl rfl rfl rfl
    | some n => exact both (reset_root_turned hn).followed
  | adopt => exact both (modify_followed rfl (fun n => ⟨rfl, rfl⟩) rfl rfl rfl rfl rfl rfl rfl)
  | rest => exact both .rfl
  | respond => exact both .rfl
  | identify => exact both (modify_followed rfl (fun n => ⟨rfl, rfl⟩) rfl rfl rfl rfl rfl rfl rfl)
  | land => exact both .rfl
  | move_root => exact both (modify_followed rfl (fun n => ⟨rfl, rfl⟩) rfl rfl rfl rfl rfl rfl rfl)
  | open_drop => exact both .rfl
  | skip_dead => exact both .rfl
  | @close_drop m g walk => exact both (discharge_steady walk).followed
  | @park m g scope cookie pending =>
    obtain ⟨h₁ | h₁, h₂⟩ := park_followed (m := m) scope cookie pending
    · exact both ⟨h₁.metered, h₂⟩
    · exact both ⟨h₁.metered, h₂⟩
  | @take m g key half =>
    obtain ⟨h₁, h₂⟩ := halves_ebbed (m := m) (m.pending_moves.erase key) fun k hk => by
      rw [get_erase] at hk
      split at hk
      · exact absurd rfl hk
      · exact hk
    exact both ⟨h₁.metered, h₂⟩
  | @release m g scope src ht ha =>
    obtain ⟨h₁, h₂⟩ := release_followed h ha
    exact both ⟨h₁.metered, h₂⟩
  | @remark m g key f =>
    obtain ⟨h₁, h₂⟩ := halves_ebbed (m := m) (m.pending_moves.modify key f)
      fun k hk hn => by
        rw [get_modify] at hk
        split at hk
        · simp [hn] at hk
        · exact hk hn
    exact both ⟨h₁.metered, h₂⟩
  | @purge m g scope =>
    obtain ⟨h₁, h₂⟩ := halves_ebbed (m := m)
      (m.pending_moves.filter fun key _ => key.1 != scope) fun k hk hn => by
        rw [get_filter, hn] at hk
        exact hk rfl
    exact both ⟨h₁.metered, h₂⟩
  | @reprofile m g scope caps =>
    obtain ⟨_, _, he⟩ := m.reprofile_shape scope caps
    refine both ?_
    rw [he]
    exact aside_followed rfl rfl rfl rfl rfl rfl rfl rfl
  | @forget_scope m g scope hr hs =>
    by_cases he : s = scope
    · subst he
      exact ⟨.inr ⟨hr, hs⟩, fun ht => ⟨ht.rearm, ht.held, ht.adopting⟩⟩
    · refine ⟨.inl (.ebb (fun e hm => hm) ?_), fun ht => ⟨ht.rearm, ht.held, ht.adopting⟩⟩
      simp only [Monitor.coverage_work_count, Monitor.forget_scope, get_erase,
        if_neg (Ne.symm he)]
  | forget_registration => exact both (aside_followed rfl rfl rfl rfl rfl rfl rfl rfl)
  | forget_book => exact both (aside_followed rfl rfl rfl rfl rfl rfl rfl rfl)
  | skip_action => exact both (aside_followed rfl rfl rfl rfl rfl rfl rfl rfl)
  | @dispatch m g action rest =>
    refine both ?_
    obtain ⟨f, hf, he⟩ := Monitor.dispatch_shape (m := { m with actions := rest }) action
    rw [he]
    cases action.as_watch with
    | none => exact aside_followed rfl rfl rfl rfl rfl rfl rfl rfl
    | some cmd =>
      refine modify_followed rfl (fun n => ?_) rfl rfl rfl rfl rfl rfl rfl
      rw [hf n]
      exact ⟨rfl, rfl⟩
  | poll_event => exact both (aside_followed rfl rfl rfl rfl rfl rfl rfl rfl)

end Proto
