import Tributaries.Proto.Pairing

/-! # What stays in its place

  Nodes appear and disappear in the course of a call, but only a re-key
  moves one.  A function that re-keys nothing leaves every node that
  survives it under the parent and the name that it had.
-/

open Std Collections SlotForest Forest

namespace Proto

variable {m m' m'' : Monitor} {g : Ghost} {k : Option Answer}

/-- Every node's watch was minted. -/
def Minted (m : Monitor) : Prop := ∀ x : WatchId, m.nodes[x]? ≠ none → x < m.watch_ids.next

/-- Whatever was minted before and is still there stands where it stood, and
    fills no slot that it did not fill. -/
structure Unmoved (m m' : Monitor) : Prop where
  ids : ∀ x, x < m.watch_ids.next → x < m'.watch_ids.next
  minted : Minted m → Minted m'
  stays : ∀ x q', m'.shape.place x = some q' → x < m.watch_ids.next →
    ∃ q, m.shape.place x = some q ∧ q'.parent = q.parent ∧ q'.name = q.name
  keyed : ∀ (slot : WatchId × Segment) (x : WatchId), m'.child_index[slot]? = some x →
    x < m.watch_ids.next → m.child_index[slot]? = some x

namespace Unmoved

theorem refl (m : Monitor) : Unmoved m m :=
  ⟨fun _ h => h, fun h => h, fun _ q hq _ => ⟨q, hq, rfl, rfl⟩, fun _ _ h _ => h⟩

theorem trans (h : Unmoved m m') (h' : Unmoved m' m'') : Unmoved m m'' := by
  constructor
  · intro x hx
    exact h'.ids x (h.ids x hx)
  · intro hm
    exact h'.minted (h.minted hm)
  · intro x q'' hq hx
    obtain ⟨q', hq', hp', hn'⟩ := h'.stays x q'' hq (h.ids x hx)
    obtain ⟨q, hq, hp, hn⟩ := h.stays x q' hq' hx
    exact ⟨q, hq, hp'.trans hp, hn'.trans hn⟩
  · intro slot x hs hx
    exact h.keyed slot x (h'.keyed slot x hs (h.ids x hx)) hx

theorem of_pruned (h : Pruned m m') (hids : m'.watch_ids = m.watch_ids) : Unmoved m m' := by
  constructor
  · intro x hx
    rwa [hids]
  · intro hm x hx
    rw [hids]
    exact hm x fun hn => hx (h.dead hn)
  · intro x q' hq _
    obtain ⟨q, hq, hp, hn, -⟩ := h.back x q' hq
    exact ⟨q, hq, hp, hn⟩
  · intro slot x hs _
    exact h.index slot x hs

theorem of_placed (h : Placed m m') : Unmoved m m' := by
  constructor
  · intro x hx
    rwa [h.watch_ids]
  · intro hm x hx
    rw [h.watch_ids]
    exact hm x fun hn => hx (h.dead_iff.mpr hn)
  · intro x q' hq _
    rw [h.shape] at hq
    exact ⟨q', hq, rfl, rfl⟩
  · intro slot x hs _
    rwa [h.child_index] at hs

/-- A node that was there and is there has the slot it had. -/
theorem node (h : Unmoved m m') {x : WatchId} {n n' : WatchNode} (hx : x < m.watch_ids.next)
    (hn : m.nodes[x]? = some n) (hn' : m'.nodes[x]? = some n') :
    n'.parent = n.parent ∧ n'.name = n.name := by
  obtain ⟨q, hq, hp, hname⟩ := h.stays x _ (Monitor.place_of hn') hx
  rw [Monitor.place_of hn] at hq
  cases hq
  exact ⟨hp, hname⟩

end Unmoved

theorem Calms.unmoved (h : Calms k m m') : Unmoved m m' := .of_placed h.placed

/-! ### Drops and installs -/

theorem drop_walk_ids (n : Nat) : ∀ {m : Monitor} {stack : List WatchId} {erased : ErasedCovers},
    (Monitor.drop_walk n m stack erased).1.watch_ids = m.watch_ids := by
  induction n with
  | zero => exact rfl
  | succ n ih =>
    intro m stack erased
    cases stack with
    | nil => rfl
    | cons id stack =>
      cases hn : m.nodes[id]? with
      | none =>
        simp only [Monitor.drop_walk, hn]
        exact ih
      | some node =>
        simp only [Monitor.drop_walk, hn]
        exact ih.trans (remove_death erased hn).watch_ids

theorem discharge_ids (walk : Walk) : (m.discharge walk).1.watch_ids = m.watch_ids := by
  rcases discharge_cases (m := m) walk with he | ⟨_, d₁, d₂⟩ | l
  · rw [he]
  · exact d₂.placed.watch_ids.trans d₁.placed.watch_ids
  · exact l.placed.watch_ids

theorem drop_subtree_unmoved (root : WatchId) (mode : DeficitDischarge) :
    Unmoved m (m.drop_subtree root mode).1 := by
  have hp := (drop_subtree_trace (g := Ghost.new false m) (m := m) root mode rfl).2.1
  apply Unmoved.of_pruned hp
  rw [drop_subtree_eq]
  dsimp only
  have hwalk : (Monitor.drop_walk (m.drop_fuel + 1) m [root] .default).1.watch_ids =
      m.watch_ids := drop_walk_ids _
  generalize Monitor.drop_walk (m.drop_fuel + 1) m [root] .default = walked at hwalk ⊢
  have hdis := discharge_ids (m := walked.1)
    { m.open_walk root mode with stack := [], erased := walked.2 }
  generalize (walked.1.discharge { m.open_walk root mode with stack := [], erased := walked.2 }).1
    = m₂ at hdis ⊢
  split
  · split
    · exact (stand_counted_cover_calm (k := none) (m := m₂) _).placed.watch_ids.trans
        (hdis.trans hwalk)
    · exact hdis.trans hwalk
  · exact hdis.trans hwalk

theorem drop_departed_unmoved (occupant : WatchId) :
    Unmoved m (m.drop_departed_occupant occupant) := by
  have h := drop_subtree_unmoved (m := m) occupant .coveringRescan
  unfold Monitor.drop_departed_occupant
  dsimp only
  split
  · split
    · exact h.trans (Calm.ledger (k := none) .cover_vacancy).once.unmoved
    · exact h
  · exact h

theorem retire_adopted_unmoved (adopted : WatchId) : Unmoved m (m.retire_adopted adopted) := by
  unfold Monitor.retire_adopted
  split
  · exact drop_subtree_unmoved adopted .coveringRescan
  · exact .refl m

theorem release_marker_unmoved (parent : WatchId) (scope : ScopeId)
    (disposal : AdoptionDisposal) :
    Unmoved m (m.release_adoption_marker parent scope disposal).1 := by
  have h : Unmoved m (m.take_adoption_marker parent scope).1 := by
    rw [(m.take_adoption_marker_eq parent scope).1]
    exact .of_placed (.of_eq rfl rfl rfl rfl)
  rw [release_marker_eq]
  split
  · exact h.trans ((stand_counted_cover_calm (k := none) scope).unmoved.trans
      (retire_adopted_unmoved _))
  · exact h

/-- A planted node is the only one that is new. -/
theorem plant_unmoved {parent : WatchId} (scope : ScopeId) (name : Segment) (is_dir : Bool)
    (identity : Option Identity) (hm : Minted m) (hp : m.is_watched parent = true) :
    Unmoved m (m.plant parent scope name is_dir identity) := by
  have hlt : parent < m.watch_ids.next := hm parent (by
    obtain ⟨n, hn⟩ := contains_iff.mp hp
    simp [hn])
  have hpn : parent ≠ m.watch_ids.next := by
    rintro rfl
    exact Nat.lt_irrefl _ hlt
  have he := Monitor.plant_eq scope name is_dir identity hpn
  constructor
  · rw [he]
    exact fun x hx => lt_next_succ hx
  · intro _ x hx
    rw [he] at hx ⊢
    by_cases hne : m.watch_ids.next = x
    · subst hne
      exact ProtoId.lt_succ _
    · apply lt_next_succ (hm x _)
      intro hn
      apply hx
      simp only [get_modify, get_insert, if_neg hne, hn]
      split <;> rfl
  · intro x q' hq hx
    have hne : m.watch_ids.next ≠ x := by
      rintro rfl
      exact Nat.lt_irrefl _ hx
    obtain ⟨n', hn', rfl⟩ := Monitor.place_eq_some.mp hq
    rw [he] at hn'
    simp only [get_modify, get_insert, if_neg hne] at hn'
    split at hn'
    · obtain ⟨n, hn, rfl⟩ := Option.map_eq_some_iff.mp hn'
      exact ⟨_, Monitor.place_of hn, rfl, rfl⟩
    · exact ⟨_, Monitor.place_of hn', rfl, rfl⟩
  · intro slot x hs hx
    rw [he] at hs
    simp only [get_insert] at hs
    split at hs
    · cases hs
      exact absurd hx (Nat.lt_irrefl _)
    · exact hs

theorem install_child_unmoved (parent : WatchId) (scope : ScopeId) (name : Segment)
    (is_dir : Bool) (identity : Option Identity) (hm : Minted m) :
    Unmoved m (m.install_child parent scope name is_dir identity).1 := by
  by_cases hp : m.is_watched parent = true
  swap
  · unfold Monitor.install_child
    rw [if_pos (by simp only [Monitor.is_watched] at hp; simp [hp])]
    exact .refl m
  by_cases hs : m.child_index[(parent, name)]? = none
  · rw [install_child_eq hp hs]
    have e : Ledger m (m.remove_slot_deficit scope parent name).1 := .heal_slot
    have h := (Calm.ledger (k := none) e).once.unmoved
    apply h.trans (plant_unmoved scope name is_dir identity (h.minted hm) _)
    obtain ⟨n, hn⟩ := contains_iff.mp hp
    obtain ⟨n', hn', -⟩ := e.placed.fwd hn
    exact contains_iff.mpr ⟨n', hn'⟩
  · have hc : m.child_index.contains (parent, name) = true :=
      contains_iff.mpr (Option.ne_none_iff_exists'.mp hs)
    unfold Monitor.install_child
    rw [if_neg (by simpa [Monitor.is_watched] using hp), if_pos hc]
    exact .refl m

theorem install_inherit_unmoved (parent : WatchId) (scope : ScopeId) (name : Segment)
    (identity : Option Identity) (inherit dark : Bool) (hm : Minted m) :
    Unmoved m (let (m₂, healed) := m.install_child parent scope name true identity
      if inherit then
        match m₂.child_watch parent name with
        | some fresh =>
          let m₃ := (m₂.inherit_rearm fresh).1
          (if dark then { m₃ with dark_installs := m₃.dark_installs.insert fresh } else m₃, healed)
        | none => (m₂, healed)
      else (m₂, healed)).1 := by
  have hins := install_child_unmoved parent scope name true identity hm
  generalize m.install_child parent scope name true identity = installed at hins ⊢
  obtain ⟨m₂, healed⟩ := installed
  dsimp only at hins ⊢
  split
  · split
    · rename_i fresh _
      have hin := hins.trans (inherit_rearm_calm (k := none) (m := m₂) fresh).unmoved
      dsimp only
      split
      · exact hin.trans (Calm.ledger (k := none) .darken).once.unmoved
      · exact hin
    · exact hins
  · exact hins

theorem reconcile_slot_unmoved (parent : WatchId) (scope : ScopeId) (name : Segment)
    (occupant : SlotOccupant) (replaced : Bool) (identity : Option Identity) (hm : Minted m) :
    Unmoved m (m.reconcile_slot parent scope name occupant replaced identity).1 := by
  unfold Monitor.reconcile_slot
  split
  · exact .refl m
  · have gone : Unmoved m (match m.child_watch parent name with
        | some stale => m.drop_departed_occupant stale
        | none => m) := by
      split
      · exact drop_departed_unmoved _
      · exact .refl m
    have healed : ∀ m₁ : Monitor, Unmoved m₁
        (if (m₁.remove_slot_deficit scope parent name).2 then
          (m₁.remove_slot_deficit scope parent name).1.cover_stat_vacancy parent name
        else (m₁.remove_slot_deficit scope parent name).1) := by
      intro m₁
      have e : Ledger m₁ (m₁.remove_slot_deficit scope parent name).1 := .heal_slot
      have h₁ := (Calm.ledger (k := none) e).once.unmoved
      split
      · exact h₁.trans (Calm.ledger (k := none) .cover_vacancy).once.unmoved
      · exact h₁
    cases occupant with
    | dir =>
      dsimp only
      generalize (if (replaced ||
          (m.child_watch parent name).any fun stale => m.identity_differs stale identity) = true
        then m.child_watch parent name else none) = stale
      cases stale with
      | none => exact install_inherit_unmoved parent scope name identity false false hm
      | some stale =>
        have hdrop := drop_subtree_unmoved (m := m) stale .coveringRescan
        exact hdrop.trans (install_inherit_unmoved _ _ _ _ _ _ (hdrop.minted hm))
    | unknown =>
      dsimp only
      have hrec : Unmoved m (if (m.child_watch parent name).isNone then
          m.record_slot_deficit scope parent name else m) := by
        split
        · exact (Calm.ledger (k := none) .record_slot).once.unmoved
        · exact .refl m
      generalize (if (m.child_watch parent name).isNone then
          m.record_slot_deficit scope parent name else m) = m₁ at hrec ⊢
      obtain ⟨_, _, _, _, _, -, -, -, he⟩ := queue_stat_eq (m := m₁) parent scope name
      rw [he]
      exact hrec.trans (.of_placed (.of_eq rfl rfl rfl rfl))
    | file =>
      dsimp only
      exact gone.trans (healed _)
    | gone =>
      dsimp only
      exact gone.trans (healed _)

theorem cover_and_rebuild_unmoved (scope : ScopeId) (parent : WatchId) (name : Segment)
    (is_dir : Bool) (identity : Option Identity) (hm : Minted m) :
    Unmoved m (m.cover_and_rebuild_slot scope parent name is_dir identity) := by
  have h₁ := (emit_rescan_calm (k := none) (m := m) scope (m.child_location parent name)).unmoved
  unfold Monitor.cover_and_rebuild_slot
  dsimp only
  generalize (m.emit_rescan scope (m.child_location parent name)).1 = m₁ at h₁ ⊢
  split
  · exact h₁
  · split
    · have h₂ := h₁.trans (install_child_unmoved parent scope name is_dir identity (h₁.minted hm))
      split
      · exact h₂.trans (inherit_rearm_calm (k := none) _).unmoved
      · exact h₂
    · exact h₁

theorem invalidate_root_unmoved (scope : ScopeId) (root : WatchId) :
    Unmoved m (m.invalidate_root scope root) :=
  (drop_subtree_unmoved root .teardown).trans (.of_placed (.of_eq rfl rfl rfl rfl))

/-! ### Halves -/

theorem hold_source_unmoved {scope : ScopeId} {src : WatchId} {slot : WatchId × Segment}
    (hs : m.slot_of src = some slot) (hh : src ∉ m.held_sources) :
    Unmoved m (m.hold_source scope src) := by
  have htake : Unmoved m (m.take_source scope src) := by
    obtain ⟨_, _, f, -, hf, he⟩ := Monitor.take_source_eq scope hs hh
    rw [he]
    constructor
    · exact fun x hx => hx
    · intro hm x hx
      apply hm x
      intro hn
      apply hx
      simp only [get_modify, hn]
      split <;> rfl
    · intro x q' hq _
      obtain ⟨n', hn', rfl⟩ := Monitor.place_eq_some.mp hq
      simp only [get_modify] at hn'
      split at hn'
      · obtain ⟨n, hn, rfl⟩ := Option.map_eq_some_iff.mp hn'
        exact ⟨_, Monitor.place_of hn, by rw [(hf n).1], by rw [(hf n).1]⟩
      · exact ⟨_, Monitor.place_of hn', rfl, rfl⟩
    · intro slot x hi _
      simp only [get_erase] at hi
      split at hi
      · cases hi
      · exact hi
  have hd : m.hold_source scope src =
      if (m.take_source scope src).scope_needs_reproof scope &&
          !(m.take_source scope src).rearm_settled scope then
        (m.take_source scope src).book_hold src
      else m.take_source scope src := rfl
  rw [hd]
  split
  · exact htake.trans (book_hold_calm (k := none) src).unmoved
  · exact htake

theorem resolve_stored_half_unmoved (pending : PendingMove) :
    Unmoved m (m.resolve_stored_half pending) := by
  unfold Monitor.resolve_stored_half
  refine .trans ?_ (report_half_calm (k := none) pending).unmoved
  cases pending.held with
  | none => exact .refl m
  | some src => exact drop_subtree_unmoved src .coveringRescan

theorem park_unmoved (scope : ScopeId) (cookie : MoveCookie) (pending : PendingMove) :
    Unmoved m (m.park_pending_move scope cookie pending).1 := by
  obtain ⟨_, he⟩ := m.park_shape scope cookie pending
  rw [he]
  exact .of_placed (.of_eq rfl rfl rfl rfl)

/-! ### Records that re-key nothing -/

theorem on_slot_record_unmoved (scope : ScopeId) (rec : OsRecord) (kind : ChangeKind)
    (occupant : SlotOccupant) (hk : kind.is_rescan = false) (hm : Minted m) :
    Unmoved m (let m₁ :=
        if m.ondir_allows scope rec.is_dir then m.emit_child scope rec kind else m
      match rec.name with
      | some name => (m₁.reconcile_slot rec.watch scope name occupant false rec.node).1
      | none => m₁) := by
  have hemit : Unmoved m (if m.ondir_allows scope rec.is_dir then m.emit_child scope rec kind
      else m) := by
    split
    · exact (emit_child_calm (k := none) hk).unmoved
    · exact .refl m
  cases rec.name with
  | none => exact hemit
  | some name => exact hemit.trans (reconcile_slot_unmoved _ _ _ _ _ _ (hemit.minted hm))

/-- Parking a half resolves the one it displaces. -/
theorem park_resolving_unmoved (scope : ScopeId) (cookie : MoveCookie) (pending : PendingMove) :
    Unmoved m (match (m.park_pending_move scope cookie pending).2 with
      | some displaced => (m.park_pending_move scope cookie pending).1.resolve_stored_half displaced
      | none => (m.park_pending_move scope cookie pending).1) := by
  split
  · exact (park_unmoved scope cookie pending).trans (resolve_stored_half_unmoved _)
  · exact park_unmoved scope cookie pending

theorem on_moved_from_unmoved {scope : ScopeId} {rec : OsRecord} {now : Instant}
    (h : Inv ⟨m, g⟩) (hw : g.walk = none) :
    Unmoved m (m.on_moved_from scope rec now) := by
  unfold Monitor.on_moved_from
  have hlost : ∀ (m₁ : Monitor) (is_dir : Option Bool),
      Unmoved m₁ (m₁.resolve_lost_source scope (m₁.record_location rec) is_dir rec.evidence) :=
    fun _ _ => (resolve_lost_source_calm (k := none) _ _ _ _).unmoved
  cases hb : (rec.name.bind fun name => m.child_watch rec.watch name) with
  | none =>
    dsimp only
    split
    · split
      · exact park_resolving_unmoved scope _ _
      · exact hlost m _
    · exact hlost m _
  | some src =>
    simp only [Option.isSome_some, if_true]
    obtain ⟨name, -, hn⟩ := Option.bind_eq_some_iff.mp hb
    have hslot := slot_of_index (h.sound hw) hn
    have unpairable : ∀ b : Bool, Unmoved m
        ((if b then m.stand_counted_cover scope else m).drop_departed_occupant src) := by
      intro b
      cases b with
      | true =>
        exact (stand_counted_cover_calm (k := none) scope).unmoved.trans (drop_departed_unmoved src)
      | false => exact drop_departed_unmoved src
    split
    · split
      · exact (hold_source_unmoved hslot (h.unheld hslot hn)).trans (park_resolving_unmoved scope _ _)
      · exact (unpairable _).trans (hlost _ _)
    · exact (unpairable _).trans (hlost _ _)

theorem pair_late_unmoved (scope : ScopeId) (rec : OsRecord) (pending : PendingMove)
    (dest : Location) (hm : Minted m) : Unmoved m (m.pair_late scope rec pending dest) := by
  have h₁ := resolve_stored_half_unmoved (m := m) pending
  unfold Monitor.pair_late
  dsimp only
  generalize m.resolve_stored_half pending = m₁ at h₁ ⊢
  generalize (pending.held.any m.is_watched) = carried
  generalize rec.is_dir.or pending.is_dir = class_
  split
  swap
  · exact h₁.trans (escalate_calm (k := none) scope).unmoved
  have hemit : Calms none m₁ (if m₁.ondir_allows scope class_ then
      (m₁.emit scope dest .created rec.evidence class_).1 else m₁) := by
    split
    · exact emit_calm rfl
    · exact .refl
  cases rec.name with
  | none =>
    dsimp only
    cases carried with
    | true => exact h₁.trans (Calms.unmoved (hemit.trans (stand_counted_cover_calm scope)))
    | false => exact h₁.trans hemit.unmoved
  | some name =>
    dsimp only
    cases carried with
    | true =>
      have h₃ := h₁.trans (Calms.unmoved (hemit.trans (emit_rescan_calm scope dest)))
      exact (h₃.trans (reconcile_slot_unmoved _ _ _ _ _ _ (h₃.minted hm))).trans
        (inherit_at_slot_calm (k := none) rec.watch name).unmoved
    | false =>
      have h₃ := h₁.trans hemit.unmoved
      exact h₃.trans (reconcile_slot_unmoved _ _ _ _ _ _ (h₃.minted hm))

theorem arrive_unpaired_unmoved (scope : ScopeId) (rec : OsRecord) (dest : Location)
    (hm : Minted m) : Unmoved m (m.arrive_unpaired scope rec dest) := by
  unfold Monitor.arrive_unpaired
  have hemit : Unmoved m (if m.ondir_allows scope rec.is_dir then
      (m.emit scope dest .created rec.evidence rec.is_dir).1 else m) := by
    split
    · exact (emit_calm (k := none) rfl).unmoved
    · exact .refl m
  cases rec.name with
  | none => exact hemit
  | some name => exact hemit.trans (reconcile_slot_unmoved _ _ _ _ _ _ (hemit.minted hm))

theorem pair_unheld_unmoved (scope : ScopeId) (rec : OsRecord) (pending : PendingMove)
    (dest : Location) (class_ : Option Bool) (hm : Minted m) :
    Unmoved m (m.pair_unheld scope rec pending dest class_).1 := by
  obtain ⟨m₁, resolved, hm₁, heq⟩ := pair_unheld_eq (m := m) scope rec pending dest class_
  have h₁ : Unmoved m m₁ := by
    rw [hm₁]
    split
    · exact (stand_counted_cover_calm (k := none) scope).unmoved.trans (drop_subtree_unmoved _ _)
    · exact .refl m
  have h₄ := h₁.trans (deliver_pair_calm (k := none) scope pending dest class_
    (pending.evidence.union rec.evidence) resolved).unmoved
  rw [heq _ rfl]
  cases rec.name with
  | none => exact h₄
  | some name => exact h₄.trans (reconcile_slot_unmoved _ _ _ _ _ _ (h₄.minted hm))

theorem on_move_self_unmoved (scope : ScopeId) (rec : OsRecord) :
    Unmoved m (m.on_move_self scope rec) := by
  unfold Monitor.on_move_self
  split
  · exact (emit_rescan_calm (k := none) scope []).unmoved.trans (invalidate_root_unmoved _ _)
  · split
    · exact release_marker_unmoved _ _ _
    · exact .refl m

theorem on_delete_self_unmoved (scope : ScopeId) (rec : OsRecord) :
    Unmoved m (m.on_delete_self scope rec) := by
  unfold Monitor.on_delete_self
  split
  · refine .trans ?_ (invalidate_root_unmoved scope rec.watch)
    refine Unmoved.trans ?_ (emit_rescan_calm (k := none) scope []).unmoved
    split
    · exact (emit_calm (k := none) rfl).unmoved
    · exact .refl m
  · exact drop_departed_unmoved rec.watch

theorem on_ignored_unmoved (scope : ScopeId) (rec : OsRecord) (hm : Minted m) :
    Unmoved m (m.on_ignored scope rec) := by
  unfold Monitor.on_ignored
  split
  · exact (emit_rescan_calm (k := none) scope []).unmoved.trans (invalidate_root_unmoved _ _)
  · split
    · exact (book_hold_calm (k := none) _).unmoved.trans (drop_subtree_unmoved _ _)
    · have hd := drop_subtree_unmoved (m := m) rec.watch .coveringRescan
      dsimp only
      split
      · exact hd.trans (stand_counted_cover_calm (k := none) scope).unmoved
      · exact hd.trans (cover_and_rebuild_unmoved _ _ _ _ _ (hd.minted hm))

end Proto
