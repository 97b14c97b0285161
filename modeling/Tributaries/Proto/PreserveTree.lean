import Tributaries.Proto.Preserve
import Tributaries.Proto.Walks

/-! # The edits of the tree keep the invariants

  The edits of the watch tree are taken one by one through their equation
  in the slot forest.  A birth and a removal change which nodes there are;
  a hold and a re-key move one node off its slot and onto another.
-/

open Std Collections SlotForest Forest

namespace Proto

variable {m m' : Monitor}

/-! ### The edits of the tree -/

section Edits

variable {g : Ghost}

theorem doomed_empty (hw : g.walk = none) : {x | x ∈ g.doomed} = (∅ : Set WatchId) := by
  simp [Ghost.doomed, hw]

theorem Inv.sound (h : Inv ⟨m, g⟩) (hw : g.walk = none) : m.shape.Sound ∅ := by
  have := h.tree
  rwa [doomed_empty hw] at this

theorem Inv.next_dead (h : Inv ⟨m, g⟩) : m.nodes[m.watch_ids.next]? = none := by
  by_contra hn
  exact Nat.lt_irrefl _ (h.minted _ hn)

theorem lt_next_succ {x : WatchId} (h : x < m.watch_ids.next) : x < m.watch_ids.next.succ :=
  Nat.lt_succ_of_lt h

theorem scope_dead {x : WatchId} (h : m.nodes[x]? = none) : m.scope_of x = none := by
  simp [Monitor.scope_of, h]

theorem slot_dead {x : WatchId} (h : m.nodes[x]? = none) : m.slot_of x = none := by
  simp [Monitor.slot_of, h]

/-- A birth: one node appears that nothing names, and no other node changes. -/
structure Birth (m m' : Monitor) (r : WatchId) : Prop where
  dead : m.nodes[r]? = none
  minted : r < m'.watch_ids.next
  ids : ∀ x, x < m.watch_ids.next → x < m'.watch_ids.next
  live : ∀ x, x ≠ r → (m'.nodes[x]? = none ↔ m.nodes[x]? = none)
  scope : ∀ x, x ≠ r → m'.scope_of x = m.scope_of x
  state : ∃ st, st.request = none ∧ ∀ x, m'.state_of x = if x = r then some st else m.state_of x
  slot : ∀ x slot, m.slot_of x = some slot → m'.slot_of x = some slot ∧
    (m'.child_index[slot]? = some x ↔ m.child_index[slot]? = some x)
  fresh_slot : ∀ x slot, m'.slot_of x = some slot → m.slot_of x = some slot ∨
    m'.child_index[slot]? = some x
  req_ids : m'.req_ids = m.req_ids
  pending_enumerate : m'.pending_enumerate = m.pending_enumerate
  latent_cold : m'.latent_cold = m.latent_cold
  pending_stat : m'.pending_stat = m.pending_stat
  pending_moves : m'.pending_moves = m.pending_moves
  held_sources : m'.held_sources = m.held_sources

theorem Birth.holds {r : WatchId} {transit : Option WatchId} {spare spare' : List WatchId}
    (b : Birth m m' r) (h : Holds m transit spare)
    (hr : ¬ (r < m.watch_ids.next ∧ r ∉ spare)) (hsp : ∀ x ∈ spare', x ∈ spare) :
    Holds m' transit spare' where
  half_scope := by
    rw [b.pending_moves]
    exact h.half_scope
  half_minted k hf x hk hx := by
    have := h.half_minted k hf x (b.pending_moves ▸ hk) hx
    exact ⟨b.ids x this.1, fun hs => this.2 (hsp x hs)⟩
  half_held k hf x s hk hx hs := by
    have hlt := h.half_minted k hf x (b.pending_moves ▸ hk) hx
    have hne : x ≠ r := by
      rintro rfl
      exact hr hlt
    rw [b.held_sources]
    exact h.half_held k hf x s (b.pending_moves ▸ hk) hx (b.scope x hne ▸ hs)
  half_unique k k' hf hf' x s hk hk' hx hx' hs := by
    have hlt := h.half_minted k hf x (b.pending_moves ▸ hk) hx
    have hne : x ≠ r := by
      rintro rfl
      exact hr hlt
    exact h.half_unique k k' hf hf' x s (b.pending_moves ▸ hk) (b.pending_moves ▸ hk') hx hx'
      (b.scope x hne ▸ hs)
  held_off x hx := by
    obtain ⟨slot, hs, hi⟩ := h.held_off x (b.held_sources ▸ hx)
    exact ⟨slot, (b.slot x slot hs).1, fun he => hi ((b.slot x slot hs).2.mp he)⟩
  held_half x hx := by
    rw [b.pending_moves]
    exact h.held_half x (b.held_sources ▸ hx)
  transit_minted x hx := by
    have := h.transit_minted x hx
    exact ⟨b.ids x this.1, fun hs => this.2 (hsp x hs)⟩
  transit_off x hx := by
    have hne : x ≠ r := by
      rintro rfl
      exact hr (h.transit_minted x hx)
    rcases h.transit_off x hx with hd | ⟨slot, hs⟩
    · exact .inl ((b.live x hne).mpr hd)
    · exact .inr ⟨slot, (b.slot x slot hs).1⟩
  slotted x slot hx := by
    rw [b.held_sources]
    rcases b.fresh_slot x slot hx with ho | ho
    · rw [(b.slot x slot ho).2]
      exact h.slotted x slot ho
    · exact .inr (.inr ho)

theorem Birth.inv {g' : Ghost} {r : WatchId} (b : Birth m m' r) (h : Inv ⟨m, g⟩)
    (hr : r = m.watch_ids.next ∨ r ∈ g.spare) (hsp : ∀ x ∈ g'.spare, x ∈ g.spare ∧ x ≠ r)
    (ht : g'.transit = g.transit) (hw : g'.walk = none) (hs : m'.shape.Sound ∅) :
    Inv ⟨m', g'⟩ where
  tree := by
    rw [doomed_empty hw]
    exact hs
  minted x hx := by
    by_cases hxr : x = r
    · exact hxr ▸ b.minted
    · exact b.ids x (h.minted x fun hd => hx ((b.live x hxr).mpr hd))
  spare :=
    { minted := fun x hx => b.ids x (h.spare.minted x (hsp x hx).1)
      dead := fun x hx => (b.live x (hsp x hx).2).mpr (h.spare.dead x (hsp x hx).1) }
  holds := by
    rw [ht]
    refine b.holds h.holds ?_ fun x hx => (hsp x hx).1
    rintro ⟨hlt, hns⟩
    rcases hr with rfl | hr
    · exact Nat.lt_irrefl _ hlt
    · exact hns hr
  reads := by
    obtain ⟨st, hst, hall⟩ := b.state
    exact h.reads.grow b.dead hst hall b.scope b.pending_enumerate b.latent_cold b.req_ids
  stats := by
    intro req slot hq
    have hsc : m.scope_of slot.parent = some slot.scope :=
      h.stats req slot (b.pending_stat ▸ hq)
    have hne : slot.parent ≠ r := by
      intro hx
      rw [hx, scope_dead b.dead] at hsc
      cases hsc
    exact (b.scope _ hne).trans hsc

theorem inv_register {scope : ScopeId} {mask : Interest} {caps : Capabilities} (h : Inv ⟨m, g⟩)
    (hw : g.walk = none) (hr : m.roots[scope]? = none) :
    Inv ⟨(m.register_root_with_profile scope mask caps).1, g⟩ := by
  have hdead := h.next_dead
  obtain ⟨node, _, _, _, hpar, hname, hsc, -, -, hst, -, -, he⟩ := Monitor.register_eq mask caps hr
  have hnodes : ∀ x, (m.register_root_with_profile scope mask caps).1.nodes[x]? =
      if x = m.watch_ids.next then some node else m.nodes[x]? := by
    intro x
    rw [he, get_insert]
    simp only [eq_comm]
  have hslot : ∀ x, (m.register_root_with_profile scope mask caps).1.slot_of x = m.slot_of x := by
    intro x
    simp only [Monitor.slot_of, hnodes]
    split
    · simp_all
    · rfl
  refine Birth.inv (r := m.watch_ids.next) ?_ h (.inl rfl) ?_ rfl hw ?_
  · refine ⟨hdead, ?_, ?_, ?_, ?_, ⟨.arming true false, rfl, ?_⟩, ?_, ?_, ?_, ?_, ?_, ?_, ?_, ?_⟩
    · rw [he]
      exact ProtoId.lt_succ _
    · rw [he]
      exact fun x hx => lt_next_succ hx
    · intro x hx
      rw [hnodes, if_neg hx]
    · intro x hx
      simp only [Monitor.scope_of, hnodes, if_neg hx]
    · intro x
      simp only [Monitor.state_of, hnodes]
      split
      · simp [hst]
      · rfl
    · intro x slot hx
      rw [hslot, he]
      exact ⟨hx, Iff.rfl⟩
    · intro x slot hx
      exact .inl ((hslot x).symm.trans hx)
    all_goals rw [he]
  · intro x hx
    refine ⟨hx, ?_⟩
    rintro rfl
    exact Nat.lt_irrefl _ (h.spare.minted _ hx)
  · rw [Monitor.register_shape mask caps hr]
    exact (h.sound hw).register (Monitor.place_none.mpr hdead) hr

theorem inv_plant {parent : WatchId} {scope : ScopeId} {name : Segment} {is_dir : Bool}
    {identity : Option Identity} (h : Inv ⟨m, g⟩) (hw : g.walk = none)
    (hp : m.is_watched parent = true) (ha : Anchored ⟨m, g⟩ parent scope)
    (hs : m.child_index[(parent, name)]? = none) :
    Inv ⟨m.plant parent scope name is_dir identity, g⟩ := by
  have hdead := h.next_dead
  have hpn : parent ≠ m.watch_ids.next := by
    rintro rfl
    exact Nat.lt_irrefl _ ha.minted
  obtain ⟨np, hnp⟩ := contains_iff.mp hp
  have he := Monitor.plant_eq scope name is_dir identity hpn
  have hnodes : ∀ x, x ≠ m.watch_ids.next →
      (m.plant parent scope name is_dir identity).nodes[x]? = if parent = x then
        (m.nodes[x]?).map fun n => { n with children := n.children.insert m.watch_ids.next }
      else m.nodes[x]? := by
    intro x hx
    rw [he]
    simp only [get_modify, get_insert, if_neg (Ne.symm hx)]
  have hself : (m.plant parent scope name is_dir identity).nodes[m.watch_ids.next]? =
      some (m.sprout parent scope name is_dir identity) := by
    rw [he]
    simp only [get_modify, get_insert, if_neg hpn, if_true]
  have hslot : ∀ x, x ≠ m.watch_ids.next →
      (m.plant parent scope name is_dir identity).slot_of x = m.slot_of x := by
    intro x hx
    simp only [Monitor.slot_of, hnodes x hx]
    split
    · rw [Option.bind_map]
      rfl
    · rfl
  have hne : ∀ x slot, m.slot_of x = some slot → x ≠ m.watch_ids.next := by
    rintro x slot hx rfl
    rw [slot_dead hdead] at hx
    cases hx
  refine Birth.inv (r := m.watch_ids.next) ?_ h (.inl rfl) ?_ rfl hw ?_
  · refine ⟨hdead, ?_, ?_, ?_, ?_, ⟨.arming false false, rfl, ?_⟩, ?_, ?_, ?_, ?_, ?_, ?_, ?_, ?_⟩
    · rw [he]
      exact ProtoId.lt_succ _
    · rw [he]
      exact fun x hx => lt_next_succ hx
    · intro x hx
      rw [hnodes x hx]
      split <;> simp
    · intro x hx
      simp only [Monitor.scope_of, hnodes x hx]
      split
      · rw [Option.map_map]
        rfl
      · rfl
    · intro x
      by_cases hx : x = m.watch_ids.next
      · subst hx
        simp only [Monitor.state_of, hself, if_true]
        rfl
      · simp only [Monitor.state_of, hnodes x hx, if_neg hx]
        split
        · rw [Option.map_map]
          rfl
        · rfl
    · intro x slot hx
      have hx' := hne x slot hx
      refine ⟨(hslot x hx').trans hx, ?_⟩
      rw [he]
      simp only [get_insert]
      split
      · rename_i hk
        rw [← hk, hs]
        simp [Ne.symm hx']
      · rfl
    · intro x slot hx
      by_cases hx' : x = m.watch_ids.next
      · subst hx'
        right
        simp only [Monitor.slot_of, hself, Monitor.sprout, Option.bind_some] at hx
        cases hx
        rw [he]
        simp only [get_insert, if_true]
      · exact .inl ((hslot x hx').symm.trans hx)
    all_goals rw [he]
  · intro x hx
    refine ⟨hx, ?_⟩
    rintro rfl
    exact Nat.lt_irrefl _ (h.spare.minted _ hx)
  · rw [Monitor.plant_shape hpn]
    exact (h.sound hw).plant (Monitor.place_none.mpr hdead) (Monitor.place_of hnp)
      (ha.scope np hnp)

theorem inv_graft {scope : ScopeId} {reserved old_root : WatchId} {last : Segment}
    (h : Inv ⟨m, g⟩) (hw : g.walk = none) (hr : m.roots[scope]? = some old_root)
    (hs : reserved ∈ g.spare) :
    Inv ⟨(m.graft scope reserved last old_root).1,
      { g with
        out := (reserved, (m.graft scope reserved last old_root).2) :: g.out
        spare := g.spare.filter (· ≠ reserved) }⟩ := by
  have hsound := h.sound hw
  have hdead := h.spare.dead reserved hs
  obtain ⟨q, hq, hpar, hsc⟩ := hsound.root_up scope old_root hr
  obtain ⟨no, hno, rfl⟩ := Monitor.place_eq_some.mp hq
  have hne : old_root ≠ reserved := by
    rintro rfl
    rw [hdead] at hno
    cases hno
  obtain ⟨nodes, he, hnodes⟩ := m.graft_eq scope reserved last old_root
  have hget : ∀ x, x ≠ reserved → ∃ f : WatchNode → WatchNode,
      (m.graft scope reserved last old_root).1.nodes[x]? = (m.nodes[x]?).map f ∧
      ∀ n, (f n).scope = n.scope ∧ (f n).state = n.state ∧
        (x ≠ old_root → (f n).parent = n.parent ∧ (f n).name = n.name) := by
    intro x hx
    rw [he]
    simp only [hnodes, Monitor.get_attached, Monitor.stocked, get_insert, if_neg (Ne.symm hx)]
    refine ⟨_, rfl, fun n => ⟨rfl, rfl, fun ho => ?_⟩⟩
    simp [Ne.symm ho]
  have hself : ∃ n, (m.graft scope reserved last old_root).1.nodes[reserved]? = some n ∧
      n.state = .arming false false ∧ n.parent = none := by
    rw [he]
    simp only [hnodes, Monitor.get_attached, Monitor.stocked, get_insert, if_true,
      Option.map_some]
    exact ⟨_, rfl, rfl, by simp [hne, Monitor.stock]⟩
  have hidx : ∀ slot, (m.graft scope reserved last old_root).1.child_index[slot]? =
      if slot = (reserved, last) then some old_root else m.child_index[slot]? := by
    intro slot
    rw [he]
    simp only [get_insert, eq_comm]
  -- nothing stands below the reserved id before the graft
  have hbelow : ∀ x slot, m.slot_of x = some slot → slot.1 ≠ reserved := by
    rintro x ⟨p, nm⟩ hx rfl
    obtain ⟨n, hn, hp, -⟩ := Monitor.slot_of_eq_some.mp hx
    obtain ⟨np, hnp, -⟩ := hsound.parent_live (Monitor.place_of hn) hp
    rw [Monitor.place_none.mpr hdead] at hnp
    cases hnp
  have hslot : ∀ x, x ≠ reserved → x ≠ old_root →
      (m.graft scope reserved last old_root).1.slot_of x = m.slot_of x := by
    intro x hx ho
    obtain ⟨f, hf, hall⟩ := hget x hx
    simp only [Monitor.slot_of, hf, Option.bind_map]
    congr 1
    funext n
    simp only [Function.comp_apply, ((hall n).2.2 ho).1, ((hall n).2.2 ho).2]
  refine Birth.inv (r := reserved) ?_ h (.inr hs) ?_ rfl hw ?_
  · refine ⟨hdead, ?_, ?_, ?_, ?_, ⟨.arming false false, rfl, ?_⟩, ?_, ?_, ?_, ?_, ?_, ?_, ?_, ?_⟩
    · rw [he]
      exact h.spare.minted reserved hs
    · rw [he]
      exact fun x hx => hx
    · intro x hx
      obtain ⟨f, hf, -⟩ := hget x hx
      simp [hf]
    · intro x hx
      obtain ⟨f, hf, hall⟩ := hget x hx
      simp only [Monitor.scope_of, hf, Option.map_map]
      congr 1
      exact funext fun n => (hall n).1
    · intro x
      by_cases hx : x = reserved
      · subst hx
        obtain ⟨n, hn, hst, -⟩ := hself
        simp only [Monitor.state_of, hn, if_true, Option.map_some, hst]
      · obtain ⟨f, hf, hall⟩ := hget x hx
        simp only [Monitor.state_of, hf, Option.map_map, if_neg hx]
        congr 1
        exact funext fun n => (hall n).2.1
    · intro x slot hx
      have hxr : x ≠ reserved := by
        rintro rfl
        rw [slot_dead hdead] at hx
        cases hx
      have hxo : x ≠ old_root := by
        rintro rfl
        have hpar : no.parent = none := hpar
        simp [Monitor.slot_of, hno, hpar] at hx
      have hk : slot ≠ (reserved, last) := by
        rintro rfl
        exact hbelow x _ hx rfl
      exact ⟨(hslot x hxr hxo).trans hx, by rw [hidx, if_neg hk]⟩
    · intro x slot hx
      by_cases hxr : x = reserved
      · subst hxr
        obtain ⟨n, hn, -, hp⟩ := hself
        simp [Monitor.slot_of, hn, hp] at hx
      · by_cases hxo : x = old_root
        · subst hxo
          right
          have : slot = (reserved, last) := by
            have hn : (m.graft scope reserved last x).1.slot_of x = some (reserved, last) := by
              rw [he]
              simp only [Monitor.slot_of, hnodes, Monitor.get_attached, Monitor.stocked,
                get_insert, if_neg (Ne.symm hne), hno]
              simp
            exact Option.some.inj (hx.symm.trans hn)
          rw [hidx, if_pos this]
        · exact .inl ((hslot x hxr hxo).symm.trans hx)
    all_goals rw [he]
  · intro x hx
    simpa using List.mem_filter.mp hx
  · rw [Monitor.graft_shape hsound hdead hr]
    exact hsound.graft (Monitor.place_none.mpr hdead) hr

/-! ### Holding and re-keying -/

theorem Stats.scoped (h : Stats m)
    (hs : ∀ (x : WatchId) (s : ScopeId), m.scope_of x = some s → m'.scope_of x = some s ∨
      ∀ (req : ReqId) (slot : StatSlot), m'.pending_stat[req]? = some slot → slot.parent ≠ x)
    (hr : Monitor.Restats m.pending_stat m'.pending_stat) : Stats m' := by
  intro req slot' hq
  obtain ⟨slot, hq', hpar, -, hsc⟩ := hr req slot' hq
  have := h req slot hq'
  rw [← hpar, ← hsc] at this
  exact (hs _ _ this).resolve_right fun hn => hn req slot' hq rfl

/-- A node that stands in a slot is the child of a live parent it is named in. -/
theorem slot_of_index {doomed : Set WatchId} (h : m.shape.Sound doomed) {slot : WatchId × Segment}
    {x : WatchId} (hs : m.child_index[slot]? = some x) : m.slot_of x = some slot := by
  obtain ⟨p, name⟩ := slot
  obtain ⟨q, hq, hp, hn⟩ := h.slot_up p name x hs
  obtain ⟨n, hx, rfl⟩ := Monitor.place_eq_some.mp hq
  exact Monitor.slot_of_eq_some.mpr ⟨n, hx, hp, hn⟩

theorem inv_hold {scope : ScopeId} {src parent : WatchId} {name : Segment} (h : Inv ⟨m, g⟩)
    (ht : g.transit = none) (hp : m.slot_of src = some (parent, name))
    (hs : m.child_index[(parent, name)]? = some src) :
    Inv ⟨m.take_source scope src, { g with transit := some src }⟩ := by
  have hh := h.unheld hp hs
  have hshape := Monitor.take_source_shape scope hp hh
  obtain ⟨stat, arms, f, hr, hf, he⟩ := Monitor.take_source_eq scope hp hh
  have hscope : ∀ x, (m.take_source scope src).scope_of x = m.scope_of x := by
    intro x
    rw [Monitor.scope_of_shape, Monitor.scope_of_shape, hshape]
    rfl
  have hslot : ∀ x, (m.take_source scope src).slot_of x = m.slot_of x := by
    intro x
    rw [Monitor.slot_of_shape, Monitor.slot_of_shape, hshape]
    rfl
  have hlive : ∀ x : WatchId, (m.take_source scope src).nodes[x]? = none ↔ m.nodes[x]? = none := by
    intro x
    rw [← Monitor.place_none, ← Monitor.place_none, hshape]
    rfl
  have hidx : ∀ k : WatchId × Segment, (m.take_source scope src).child_index[k]? =
      if (parent, name) = k then none else m.child_index[k]? := by
    intro k
    rw [he, get_erase]
  obtain ⟨node, hnode, -⟩ := Monitor.slot_of_eq_some.mp hp
  have hsl : m.nodes[src]? ≠ none := by simp [hnode]
  refine ⟨?_, ?_, ⟨?_, ?_⟩, ?_, ?_, ?_⟩
  · rw [hshape]
    exact h.tree.vacate
  · intro x hx
    have := h.minted x fun hd => hx ((hlive x).mpr hd)
    rwa [he]
  · rw [he]
    exact h.spare.minted
  · exact fun x hx => (hlive x).mpr (h.spare.dead x hx)
  · constructor
    · rw [he]
      exact h.holds.half_scope
    · rw [he]
      exact h.holds.half_minted
    · intro k hf' x s hk hx hsx
      rw [he] at hk
      rw [hscope] at hsx
      obtain ⟨hm, hks, -⟩ := h.holds.half_held k hf' x s hk hx hsx
      refine ⟨?_, hks, ?_⟩
      · rw [he]
        simp [hm]
      · rintro ⟨⟩
        exact hh hm
    · intro k k' h₁ h₂ x s hk hk' hx hx' hsx
      rw [he] at hk hk'
      rw [hscope] at hsx
      exact h.holds.half_unique k k' h₁ h₂ x s hk hk' hx hx' hsx
    · intro x hx
      rw [hslot]
      rw [he] at hx
      rcases mem_insert_iff.mp hx with rfl | hx
      · exact ⟨_, hp, by rw [hidx]; simp⟩
      · obtain ⟨slot, hs₁, hs₂⟩ := h.holds.held_off x hx
        refine ⟨slot, hs₁, ?_⟩
        rw [hidx]
        split
        · simp
        · exact hs₂
    · intro x hx
      rw [he] at hx ⊢
      rcases mem_insert_iff.mp hx with rfl | hx
      · exact .inl rfl
      · rcases h.holds.held_half x hx with h₁ | h₁
        · simp [ht] at h₁
        · exact .inr h₁
    · rintro x ⟨⟩
      refine ⟨?_, fun hx => hsl (h.spare.dead _ hx)⟩
      rw [he]
      exact h.minted _ hsl
    · rintro x ⟨⟩
      exact .inr ⟨_, (hslot _).trans hp⟩
    · intro x slot hx
      rw [hslot] at hx
      rcases h.holds.slotted x slot hx with h₁ | h₁ | h₁
      · left
        rw [he]
        simp [h₁]
      · simp [ht] at h₁
      · by_cases hk : (parent, name) = slot
        · subst hk
          have : src = x := Option.some.inj (hs.symm.trans h₁)
          exact .inr (.inl (congrArg some this))
        · exact .inr (.inr (by rw [hidx, if_neg hk, h₁]))
  · refine h.reads.same ?_ (funext hscope) ?_ ?_ ?_
    · funext x
      simp only [Monitor.state_of, he, get_modify]
      split
      · rw [Option.map_map]
        congr 1
        exact funext fun n => (hf n).2.2.1
      · rfl
    all_goals rw [he]
  · refine h.stats.scoped (fun x s hx => .inl ((hscope x).trans hx)) ?_
    rw [he]
    exact hr

theorem inv_rekey {child new_parent : WatchId} {new_name : Segment} {scope : ScopeId}
    (h : Inv ⟨m, g⟩) (hw : g.walk = none) (ht : g.transit = some child)
    (hh : child ∉ m.held_sources) (hc : m.scope_of child = some scope)
    (hp : m.scope_of new_parent = some scope) (hd : m.is_descendant new_parent child = false)
    (hoff : ∀ slot, m.slot_of child = some slot → m.child_index[slot]? ≠ some child)
    (hs : m.child_index[(new_parent, new_name)]? = none) :
    Inv ⟨m.rekey child new_parent new_name, g⟩ := by
  have hsound := h.sound hw
  have hshape := Monitor.rekey_shape child new_parent new_name hsound
  obtain ⟨nodes, he⟩ := m.rekey_eq child new_parent new_name
  obtain ⟨nc, hnc, hncs⟩ := Monitor.scope_of_eq_some.mp hc
  obtain ⟨nq, hnq, hnqs⟩ := Monitor.scope_of_eq_some.mp hp
  obtain ⟨slot₀, hslot₀⟩ : ∃ slot, m.slot_of child = some slot := by
    rcases h.holds.transit_off child ht with hx | hx
    · rw [hnc] at hx
      cases hx
    · exact hx
  have hplace : ∀ x, (m.rekey child new_parent new_name).shape.place x =
      (m.shape.place x).map fun n =>
        { n with
          parent := if x = child then some new_parent else n.parent
          name := if x = child then some new_name else n.name
          children := if x = new_parent then insert child (n.children \ {child})
            else n.children \ {child} } := by
    intro x
    rw [hshape, Shape.rekey_place]
    cases m.shape.place x with
    | none => rfl
    | some n =>
      simp only [Option.map_some]
      congr
  have hscope : ∀ x, (m.rekey child new_parent new_name).scope_of x = m.scope_of x := by
    intro x
    rw [Monitor.scope_of_shape, Monitor.scope_of_shape, hplace, Option.map_map]
    rfl
  have hlive : ∀ x : WatchId, (m.rekey child new_parent new_name).nodes[x]? = none ↔ m.nodes[x]? = none := by
    intro x
    rw [← Monitor.place_none, ← Monitor.place_none, hplace, Option.map_eq_none_iff]
  have hslot : ∀ x, x ≠ child →
      (m.rekey child new_parent new_name).slot_of x = m.slot_of x := by
    intro x hx
    rw [Monitor.slot_of_shape, Monitor.slot_of_shape, hplace, Option.bind_map]
    simp only [Function.comp_def, if_neg hx]
  have hself : (m.rekey child new_parent new_name).slot_of child = some (new_parent, new_name) := by
    rw [Monitor.slot_of_shape, hplace, Monitor.place_of hnc]
    simp
  have hidx : ∀ k : WatchId × Segment, (m.rekey child new_parent new_name).child_index[k]? =
      if (new_parent, new_name) = k then some child else m.child_index[k]? := by
    intro k
    rw [he, get_insert]
  refine ⟨?_, ?_, ⟨?_, ?_⟩, ?_, ?_, ?_⟩
  · rw [doomed_empty hw, hshape]
    refine hsound.rekey (Monitor.place_of hnc) (Monitor.place_of hnq) (hncs.trans hnqs.symm)
      ?_ ?_ ?_
    · intro k hk
      exact hoff k (slot_of_index hsound hk) hk
    · intro hn
      have hn : nc.parent = none := hn
      simp [Monitor.slot_of, hnc, hn] at hslot₀
    · rw [← Monitor.is_descendant_iff hsound, hd]
      simp
  · intro x hx
    have := h.minted x fun hd => hx ((hlive x).mpr hd)
    rwa [he]
  · rw [he]
    exact h.spare.minted
  · exact fun x hx => (hlive x).mpr (h.spare.dead x hx)
  · constructor
    · rw [he]
      exact h.holds.half_scope
    · rw [he]
      exact h.holds.half_minted
    · intro k hf x s hk hx hsx
      rw [he] at hk ⊢
      rw [hscope] at hsx
      exact h.holds.half_held k hf x s hk hx hsx
    · intro k k' h₁ h₂ x s hk hk' hx hx' hsx
      rw [he] at hk hk'
      rw [hscope] at hsx
      exact h.holds.half_unique k k' h₁ h₂ x s hk hk' hx hx' hsx
    · intro x hx
      rw [he] at hx
      have hxc : x ≠ child := fun hxc => hh (hxc ▸ hx)
      obtain ⟨slot, hs₁, hs₂⟩ := h.holds.held_off x hx
      refine ⟨slot, (hslot x hxc).trans hs₁, ?_⟩
      rw [hidx]
      split
      · simpa using Ne.symm hxc
      · exact hs₂
    · rw [he]
      exact h.holds.held_half
    · rw [he]
      exact h.holds.transit_minted
    · intro x hx
      obtain rfl := Option.some.inj (ht.symm.trans hx)
      exact .inr ⟨_, hself⟩
    · intro x slot hx
      by_cases hxc : x = child
      · subst hxc
        obtain rfl := Option.some.inj (hself.symm.trans hx)
        exact .inr (.inl ht)
      · rw [hslot x hxc] at hx
        rcases h.holds.slotted x slot hx with h₁ | h₁ | h₁
        · left
          rw [he]
          exact h₁
        · exact .inr (.inl h₁)
        · refine .inr (.inr ?_)
          rw [hidx, if_neg, h₁]
          rintro rfl
          rw [hs] at h₁
          cases h₁
  · refine h.reads.same ?_ (funext hscope) ?_ ?_ ?_
    · funext x
      simp only [Monitor.state_of, Monitor.get_rekeyed, Monitor.get_attached, Option.map_map]
      rfl
    all_goals rw [he]
  · refine h.stats.scoped (fun x s hx => .inl ((hscope x).trans hx)) ?_
    rw [he]
    exact .refl _

/-! ### Dropping -/

theorem inv_uproot {scope : ScopeId} {root : WatchId} {walk : Walk} (h : Inv ⟨m, g⟩)
    (hw : g.walk = none) (hr : m.roots[scope]? = some root) (hs : walk.stack = [root]) :
    Inv ⟨{ m with roots := m.roots.erase scope }, { g with walk := some walk }⟩ where
  tree := by
    have hshape : Monitor.shape { m with roots := m.roots.erase scope } =
        m.shape.uproot scope := by
      refine Shape.ext rfl rfl (funext fun s => ?_)
      simp only [Monitor.shape, get_erase, Shape.uproot_root]
      grind
    rw [hshape]
    have hd : {x | x ∈ Ghost.doomed { g with walk := some walk }} = {root} := by
      ext x
      simp [Ghost.doomed, hs]
    rw [hd]
    exact (h.sound hw).uproot hr
  minted := h.minted
  spare := ⟨h.spare.minted, h.spare.dead⟩
  holds := { h.holds with }
  reads := h.reads.same rfl rfl rfl rfl rfl
  stats := h.stats

/-- A death: one node disappears with what is kept for it, and no other node
    leaves its place. -/
structure Death (m m' : Monitor) (id : WatchId) (node : WatchNode) : Prop where
  was : m.nodes[id]? = some node
  dead : m'.nodes[id]? = none
  live : ∀ x, x ≠ id → ∃ f : WatchNode → WatchNode, m'.nodes[x]? = (m.nodes[x]?).map f ∧
    ∀ n, (f n).scope = n.scope ∧ (f n).state = n.state ∧ (f n).parent = n.parent ∧
      (f n).name = n.name
  index : ∀ (k : WatchId × Segment) (x : WatchId), x ≠ id →
    (m'.child_index[k]? = some x ↔ m.child_index[k]? = some x)
  watch_ids : m'.watch_ids = m.watch_ids
  req_ids : m'.req_ids = m.req_ids
  pending_enumerate : m'.pending_enumerate = (m.forget_state node.state).pending_enumerate
  latent_cold : m'.latent_cold = (m.forget_state node.state).latent_cold
  pending_stat : Monitor.Restats m.pending_stat m'.pending_stat
  no_stat : ∀ (req : ReqId) (slot : StatSlot), m'.pending_stat[req]? = some slot →
    slot.parent ≠ id
  pending_moves : m'.pending_moves = m.pending_moves
  held_sources : m'.held_sources = m.held_sources.erase id

theorem remove_death {id : WatchId} {node : WatchNode} (erased : ErasedCovers)
    (hn : m.nodes[id]? = some node) : Death m (m.remove_node id node erased).1 id node := by
  obtain ⟨stat, slots, losses, hr, hnp, he, -⟩ := m.remove_node_eq id node erased
  rw [he]
  refine ⟨hn, ?_, ?_, ?_, rfl, rfl, rfl, rfl, hr, hnp, rfl, rfl⟩
  · simp only [Monitor.get_unlinked_nodes, if_true]
  · intro x hx
    simp only [Monitor.get_unlinked_nodes, if_neg hx]
    split
    · exact ⟨_, rfl, fun n => ⟨rfl, rfl, rfl, rfl⟩⟩
    · exact ⟨fun n => n, by simp, fun n => ⟨rfl, rfl, rfl, rfl⟩⟩
  · intro k x hx
    simp only [Monitor.get_unlinked_index]
    split
    · rename_i hk
      rw [hk.2.2]
      simp [Ne.symm hx]
    · rfl

namespace Death

variable {id x : WatchId} {node : WatchNode}

theorem live_iff (d : Death m m' id node) (x : WatchId) :
    m'.nodes[x]? = none ↔ x = id ∨ m.nodes[x]? = none := by
  by_cases hx : x = id
  · simp [hx, d.dead]
  · obtain ⟨f, hf, -⟩ := d.live x hx
    simp [hf, hx]

theorem scope_of (d : Death m m' id node) (hx : x ≠ id) : m'.scope_of x = m.scope_of x := by
  obtain ⟨f, hf, hall⟩ := d.live x hx
  simp only [Monitor.scope_of, hf, Option.map_map]
  congr 1
  exact funext fun n => (hall n).1

theorem slot_of (d : Death m m' id node) (hx : x ≠ id) : m'.slot_of x = m.slot_of x := by
  obtain ⟨f, hf, hall⟩ := d.live x hx
  simp only [Monitor.slot_of, hf, Option.bind_map]
  congr 1
  funext n
  simp only [Function.comp_apply, (hall n).2.2]

theorem state_of (d : Death m m' id node) (x : WatchId) :
    m'.state_of x = if x = id then none else m.state_of x := by
  by_cases hx : x = id
  · subst hx
    simp [Monitor.state_of, d.dead]
  · obtain ⟨f, hf, hall⟩ := d.live x hx
    simp only [Monitor.state_of, hf, Option.map_map, if_neg hx]
    congr 1
    exact funext fun n => (hall n).2.1

/-- What a node had in the end it had before, and it is another one. -/
theorem scope_back (d : Death m m' id node) {s : ScopeId} (hx : m'.scope_of x = some s) :
    x ≠ id ∧ m.scope_of x = some s := by
  have hne : x ≠ id := by
    rintro rfl
    rw [scope_dead d.dead] at hx
    cases hx
  exact ⟨hne, (d.scope_of hne).symm.trans hx⟩

theorem slot_back (d : Death m m' id node) {slot : WatchId × Segment}
    (hx : m'.slot_of x = some slot) : x ≠ id ∧ m.slot_of x = some slot := by
  have hne : x ≠ id := by
    rintro rfl
    rw [slot_dead d.dead] at hx
    cases hx
  exact ⟨hne, (d.slot_of hne).symm.trans hx⟩

theorem holds (d : Death m m' id node) {transit : Option WatchId} {spare : List WatchId}
    (h : Holds m transit spare) : Holds m' transit spare where
  half_scope := by
    rw [d.pending_moves]
    exact h.half_scope
  half_minted := by
    rw [d.pending_moves, d.watch_ids]
    exact h.half_minted
  half_held k hf x s hk hx hs := by
    obtain ⟨hne, hs⟩ := d.scope_back hs
    obtain ⟨h₁, h₂, h₃⟩ := h.half_held k hf x s (d.pending_moves ▸ hk) hx hs
    exact ⟨d.held_sources ▸ mem_erase_iff.mpr ⟨Ne.symm hne, h₁⟩, h₂, h₃⟩
  half_unique k k' h₁ h₂ x s hk hk' hx hx' hs :=
    h.half_unique k k' h₁ h₂ x s (d.pending_moves ▸ hk) (d.pending_moves ▸ hk') hx hx'
      (d.scope_back hs).2
  held_off x hx := by
    rw [d.held_sources] at hx
    obtain ⟨hne, hx⟩ := mem_erase_iff.mp hx
    obtain ⟨slot, h₁, h₂⟩ := h.held_off x hx
    exact ⟨slot, (d.slot_of (Ne.symm hne)).trans h₁,
      fun hi => h₂ ((d.index slot x (Ne.symm hne)).mp hi)⟩
  held_half x hx := by
    rw [d.held_sources] at hx
    rw [d.pending_moves]
    exact h.held_half x (mem_erase_iff.mp hx).2
  transit_minted := by
    rw [d.watch_ids]
    exact h.transit_minted
  transit_off x hx := by
    by_cases hxi : x = id
    · exact .inl (hxi ▸ d.dead)
    · rcases h.transit_off x hx with h₁ | ⟨slot, h₁⟩
      · exact .inl ((d.live_iff x).mpr (.inr h₁))
      · exact .inr ⟨slot, (d.slot_of hxi).trans h₁⟩
  slotted x slot hx := by
    obtain ⟨hne, hx⟩ := d.slot_back hx
    rcases h.slotted x slot hx with h₁ | h₁ | h₁
    · exact .inl (d.held_sources ▸ mem_erase_iff.mpr ⟨Ne.symm hne, h₁⟩)
    · exact .inr (.inl h₁)
    · exact .inr (.inr ((d.index slot x hne).mpr h₁))

end Death

theorem inv_remove {walk walk' : Walk} {id : WatchId} {stack : List WatchId} {node : WatchNode}
    (h : Inv ⟨m, g⟩) (hw : g.walk = some walk) (hs : walk.stack = id :: stack)
    (hn : m.nodes[id]? = some node) (hs' : walk'.stack = node.children.toList.reverse ++ stack) :
    Inv ⟨(m.remove_node id node walk.erased).1, { g with walk := some walk' }⟩ := by
  have hshape := Monitor.remove_shape (m := m) id node walk.erased
  have d := remove_death walk.erased hn
  generalize (m.remove_node id node walk.erased).1 = m' at hshape d
  refine ⟨?_, ?_, ⟨?_, ?_⟩, d.holds h.holds, ?_, ?_⟩
  · rw [hshape]
    refine (h.tree.remove (Monitor.place_of hn)).mono ?_
    intro x hx _
    simp only [Ghost.doomed, hw, hs, hs', Set.mem_union, Set.mem_sdiff, Set.mem_singleton_iff,
      Set.mem_ofPred_eq, List.mem_cons, List.mem_append, List.mem_reverse,
      ExtTreeSet.mem_toList] at hx ⊢
    rcases hx with ⟨hx, hne⟩ | hx
    · exact .inr (hx.resolve_left hne)
    · exact .inl hx
  · intro x hx
    have := h.minted x fun hd => hx ((d.live_iff x).mpr (.inr hd))
    rwa [d.watch_ids]
  · rw [d.watch_ids]
    exact h.spare.minted
  · exact fun x hx => (d.live_iff x).mpr (.inr (h.spare.dead x hx))
  · exact h.reads.leave none hn (by simp) d.state_of (fun _ hx => d.scope_of hx)
      d.pending_enumerate d.latent_cold d.req_ids
  · refine h.stats.scoped (fun x s hx => ?_) d.pending_stat
    by_cases hxi : x = id
    · exact .inr (hxi ▸ d.no_stat)
    · exact .inl ((d.scope_of hxi).trans hx)

end Edits

end Proto
