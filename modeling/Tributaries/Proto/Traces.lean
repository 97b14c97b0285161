import Tributaries.Proto.Turns

/-! # Functions as paths of effects

  Each function of the Monitor is a path of effects from the moment it is
  called at to the moment it returns at.  This module takes the functions
  that neither edit the tree nor touch the rename halves: deliveries,
  bridge windows, arms, reads and re-arm work.
-/

open Std Collections SlotForest Forest

namespace Proto

variable {m m' : Monitor} {k : Option Answer}

/-- An effect that touches neither the tree nor the holds, while the answer `k`
    is worked off. -/
inductive Calm (k : Option Answer) : Monitor → Monitor → Prop where
  | deliver {m m' : Monitor} (h : Deliver m m') : Calm k m m'
  | ledger {m m' : Monitor} (h : Ledger m m') : Calm k m m'
  | work {m m' : Monitor} (h : Work k m m') : Calm k m m'
  | remark {m : Monitor} {key f} (h : Remarks f) : Calm k m (m.modify_half key f)

/-- A path of such effects. -/
abbrev Calms (k : Option Answer) : Monitor → Monitor → Prop := Relation.ReflTransGen (Calm k)

theorem Calm.once (h : Calm k m m') : Calms k m m' := .single h

theorem Calm.effect {g : Ghost} (h : Calm g.answer m m') : Effect ⟨m, g⟩ ⟨m', g⟩ := by
  cases h with
  | deliver h => exact .deliver h
  | ledger h => exact .ledger h
  | work h => exact .work h
  | remark h => exact .remark h

theorem Calms.trace {g : Ghost} (h : Calms g.answer m m') : Trace ⟨m, g⟩ ⟨m', g⟩ := by
  induction h with
  | refl => exact .refl
  | tail _ e ih => exact ih.tail e.effect

theorem Effect.trace {c c' : Moment} (e : Effect c c') : Trace c c' := .single e

/-- A loop is a path when each of its rounds is one. -/
theorem Calms.foldl {α : Type} {f : Monitor → α → Monitor} (l : List α) :
    ∀ {m : Monitor}, (∀ m' a, a ∈ l → Calms k m' (f m' a)) → Calms k m (l.foldl f m) := by
  induction l with
  | nil => exact fun _ => .refl
  | cons a l ih =>
    intro m hf
    exact (hf _ a (by simp)).trans (ih fun m' b hb => hf m' b (by simp [hb]))

theorem Trace.foldl {g : Ghost} {α : Type} {f : Monitor → α → Monitor} (l : List α) :
    ∀ {m : Monitor}, (∀ m' a, a ∈ l → Trace ⟨m, g⟩ ⟨m', g⟩ → Trace ⟨m', g⟩ ⟨f m' a, g⟩) →
      Trace ⟨m, g⟩ ⟨l.foldl f m, g⟩ := by
  induction l with
  | nil => exact fun _ => .refl
  | cons a l ih =>
    intro m hf
    have h₁ := hf m a (by simp) .refl
    exact h₁.trans (ih fun m' b hb ht => hf m' b (by simp [hb]) (h₁.trans ht))

/-- A loop that carries a value beside the Monitor. -/
theorem Trace.foldl_fst {g : Ghost} {α β : Type} {f : Monitor × β → α → Monitor × β}
    (l : List α) :
    ∀ (acc : Monitor × β), (∀ (acc' : Monitor × β) a, a ∈ l → Trace ⟨acc.1, g⟩ ⟨acc'.1, g⟩ →
      Trace ⟨acc'.1, g⟩ ⟨(f acc' a).1, g⟩) → Trace ⟨acc.1, g⟩ ⟨(l.foldl f acc).1, g⟩ := by
  induction l with
  | nil => exact fun _ _ => .refl
  | cons a l ih =>
    intro acc hf
    have h₁ := hf acc a (by simp) .refl
    exact h₁.trans (ih _ fun acc' b hb ht => hf acc' b (by simp [hb]) (h₁.trans ht))

/-! ### Deliveries and bridge windows -/

theorem emit_calm {scope : ScopeId} {location : Location} {kind : ChangeKind}
    {evidence : Evidence} {is_dir : Option Bool} (h : kind.is_rescan = false) :
    Calms k m (m.emit scope location kind evidence is_dir).1 :=
  (Calm.deliver (.emit h)).once

theorem mint_calm (scope : ScopeId) (location : Location) :
    Calms k m (m.mint_rescan scope location).1 :=
  (Calm.deliver .mint).once

theorem saw_rescan_calm (scope : ScopeId) : Calms k m (m.bridge_saw_rescan scope) := by
  unfold Monitor.bridge_saw_rescan
  split
  · exact (Calm.deliver (.raise fun b => by simp)).once
  · exact .refl

theorem fresh_rearm_calm (scope : ScopeId) : Calms k m (m.bridge_fresh_rearm scope) := by
  unfold Monitor.bridge_fresh_rearm
  split
  · exact (Calm.deliver (.raise fun b => by simp)).once
  · exact .refl

theorem mark_bootstrap_loss_calm (scope : ScopeId) :
    Calms k m (m.mark_bootstrap_loss scope) := by
  unfold Monitor.mark_bootstrap_loss
  split
  · exact saw_rescan_calm scope
  · exact .refl

theorem emit_rescan_calm (scope : ScopeId) (location : Location) :
    Calms k m (m.emit_rescan scope location).1 :=
  (saw_rescan_calm scope).trans (mint_calm scope location)

theorem settle_bridges_calm : Calms k m m.settle_bridges :=
  Calms.foldl _ fun _ _ _ => (Calm.deliver .settle).once

theorem emit_child_calm {scope : ScopeId} {rec : OsRecord} {kind : ChangeKind}
    (h : kind.is_rescan = false) : Calms k m (m.emit_child scope rec kind) :=
  emit_calm h

theorem resolve_lost_source_calm (scope : ScopeId) (source : Location) (is_dir : Option Bool)
    (evidence : Evidence) :
    Calms k m (m.resolve_lost_source scope source is_dir evidence) := by
  unfold Monitor.resolve_lost_source
  split
  · exact .refl
  · exact emit_calm rfl

theorem emit_pair_calm (scope : ScopeId) (dest : Location) (pending : PendingMove)
    (class_ : Option Bool) (evidence : Evidence) :
    Calms k m (m.emit_pair scope dest pending class_ evidence) := by
  unfold Monitor.emit_pair
  split
  · exact .refl
  · split <;> exact emit_calm rfl

theorem rescan_dirty_pair_calm (scope : ScopeId) (pending : PendingMove) (dest : Location) :
    Calms k m (m.rescan_dirty_pair scope pending dest) := by
  unfold Monitor.rescan_dirty_pair
  split
  · exact .refl
  · refine .trans ?_ (emit_rescan_calm scope dest)
    split
    · exact emit_rescan_calm scope _
    · exact .refl

/-! ### Re-arm work -/

theorem unarmed_of {x : WatchId} {state : NodeState} (h : m.state_of x = some state)
    (hs : ∀ rearm reprove, state ≠ .arming rearm reprove) : m.Unarmed x := by
  intro rearm reprove hx
  exact hs rearm reprove (Option.some.inj (h.symm.trans hx))


theorem start_rearm_calm (dir : WatchId) : Calms k m (m.start_rearm dir).1 := by
  unfold Monitor.start_rearm
  cases hs : m.scope_of dir with
  | none => exact .refl
  | some scope =>
    dsimp only
    split
    · exact .refl
    · split
      · rename_i hst
        exact (Calm.work (.read (unarmed_of hst nofun))).once
      · rename_i req kind attempts dirty hst
        have h := (Calm.work (k := k) (.redirty hst hs)).once
        cases kind with
        | cold => exact h
        | rearm reprove => exact h
      · exact .refl

theorem inherit_rearm_calm (watch : WatchId) :
    Calms k m (m.inherit_rearm watch).1 := by
  unfold Monitor.inherit_rearm
  split
  · exact start_rearm_calm watch
  · exact start_rearm_calm watch
  · rename_i hst
    exact (Calm.work (.promote hst)).once
  · exact .refl

theorem start_reinstall_calm {watch : WatchId} (hk : ∀ a, k = some a → a.watch ≠ watch) :
    Calms k m (m.start_reinstall watch) :=
  (Calm.work (.reinstall hk)).once

theorem heal_kick_calm (scope : ScopeId) {d : WatchId} (hk : ∀ a, k = some a → a.watch ≠ d) :
    Calms k m (m.heal_kick scope d) := by
  unfold Monitor.heal_kick
  split
  · exact start_reinstall_calm hk
  · exact inherit_rearm_calm d

theorem apply_descent_calm {watch : WatchId} (descent : StatDescent)
    (hk : ∀ a, k = some a → a.watch ≠ watch) : Calms k m (m.apply_descent watch descent) := by
  cases descent with
  | rearm => exact inherit_rearm_calm watch
  | reprove => exact start_reinstall_calm hk

theorem rescan_and_rearm_calm (scope : ScopeId) (dir : WatchId) :
    Calms k m (m.rescan_and_rearm scope dir) :=
  (emit_rescan_calm scope _).trans (start_rearm_calm dir)

theorem stand_counted_cover_calm (scope : ScopeId) :
    Calms k m (m.stand_counted_cover scope) := by
  unfold Monitor.stand_counted_cover
  split
  · exact .refl
  · split
    · exact .refl
    · exact (emit_rescan_calm scope _).trans (inherit_rearm_calm _)

theorem scope_loss_recovery_calm (scope : ScopeId) {root : WatchId}
    (hk : ∀ a, k = some a → a.watch ≠ root) : Calms k m (m.scope_loss_recovery scope root) := by
  unfold Monitor.scope_loss_recovery
  split
  · exact rescan_and_rearm_calm scope root
  · exact (Calm.ledger .bump_loss_gen).once.trans
      ((emit_rescan_calm scope _).trans (start_reinstall_calm hk))

theorem inherit_at_slot_calm (parent : WatchId) (name : Segment) :
    Calms k m (m.inherit_at_slot parent name) := by
  unfold Monitor.inherit_at_slot
  split
  · exact inherit_rearm_calm _
  · exact .refl

/-! ### Arms -/

theorem queue_slot_arm_calm {watch : WatchId} (scope : ScopeId) {rearm reprove : Bool}
    (hs : m.state_of watch = some (.arming rearm reprove)) :
    Calms k m (m.queue_slot_arm watch scope).1 := by
  unfold Monitor.queue_slot_arm
  cases hn : m.nodes[watch]? with
  | none => exact .refl
  | some node => exact (Calm.work (.arm hs)).once

theorem queue_reinstall_calm {watch : WatchId} (scope : ScopeId) {rearm reprove : Bool}
    (hs : m.state_of watch = some (.arming rearm reprove)) :
    Calms k m (m.queue_reinstall watch scope) := by
  have h := queue_slot_arm_calm (k := k) scope hs
  unfold Monitor.queue_reinstall
  dsimp only
  split
  · exact h
  · exact h.trans (Calm.ledger .stamp).once

theorem readdress_calm (watch : WatchId) :
    Calms k m (m.readdress_outstanding_arm watch) := by
  unfold Monitor.readdress_outstanding_arm
  split
  · exact .refl
  · rename_i node hn
    split
    · rename_i hst
      have hs := (state_of_node hn).trans (congrArg some hst)
      split
      · exact queue_reinstall_calm _ hs
      · exact queue_slot_arm_calm _ hs
    · exact .refl

/-! ### Holds and halves -/

theorem book_hold_calm (source : WatchId) : Calms k m (m.book_hold source) :=
  (Calm.ledger .book_hold).once

theorem fence_lowering_calm (watch : WatchId) (stamp : Nat) :
    Calms k m (m.fence_lowering watch stamp).1 := by
  unfold Monitor.fence_lowering
  dsimp only
  split
  · exact book_hold_calm _
  · exact .refl

theorem suppress_in_hold_calm (source watch : WatchId) :
    Calms k m (m.suppress_in_hold source watch) :=
  (book_hold_calm source).trans (Calm.work .overtake).once

theorem dirty_touching_calm (scope : ScopeId) (loc : Location) (exclude : Option MoveCookie)
    (carried : Option WatchId) :
    Calms k m (m.dirty_pending_sources_touching scope loc exclude carried) :=
  Calms.foldl _ fun m' _ _ =>
    (Calm.remark (m := m') (f := fun p => { p with dirty := true })
      ⟨fun _ => rfl, fun _ => rfl, fun _ _ => rfl, fun _ => rfl, fun _ _ h => h⟩).once

theorem dirty_held_calm (scope : Option ScopeId) :
    Calms k m (m.dirty_held_sources scope) :=
  Calms.foldl _ fun _ a _ => book_hold_calm a

/-- A rewritten suffix ends with what the old one ended with. -/
theorem rewritten_called {p : PendingMove} {from_ dest suffix : Location} {name : Segment}
    (hf : (m.pending_from p).starts_with from_ = true)
    (hr : m.rewritten_source p (m.pending_from p) from_ dest = some suffix)
    (hn : p.source.getLast? = some name) : suffix.getLast? = some name := by
  unfold Monitor.rewritten_source at hr
  split at hr
  · cases hr
  · rename_i hne
    dsimp only at hr
    split at hr
    · obtain rfl := Option.some.inj hr
      obtain ⟨rest, hrest⟩ := Location.starts_with_iff.mp hf
      -- the source lies strictly below, so the rest is not empty
      have hlast : rest.getLast? = some name := by
        have hpf : (m.pending_from p).getLast? = some name := by
          rw [Monitor.pending_from, Location.join, List.getLast?_append, hn]
          rfl
        cases rest with
        | nil => exact absurd (by rw [← hrest, List.append_nil]) hne
        | cons seg rest =>
          rw [← hrest, List.getLast?_append] at hpf
          simpa using hpf
      rw [← hrest, List.drop_left, List.getLast?_append, hlast]
      rfl
    · cases hr

theorem reanchored_keys (scope : ScopeId) (from_ dest : Location) :
    ((m.reanchored scope from_ dest).map (·.1)).Nodup := by
  have hkeys : (m.scope_halves scope).Pairwise fun a b => a.1 ≠ b.1 := by
    have hall : m.pending_moves.toList.Pairwise fun a b => a.1 ≠ b.1 :=
      m.pending_moves.distinct_keys_toList.imp fun h e => h (by rw [e]; exact ReflCmp.compare_self)
    apply List.Pairwise.sublist _ hall
    exact (List.takeWhile_sublist _).trans (List.dropWhile_sublist _)
  unfold Monitor.reanchored
  rw [List.Nodup, List.pairwise_map]
  apply List.Pairwise.filterMap _ _ (hkeys.filter _)
  intro a b hab x hx y hy
  dsimp only at hx hy
  split at hx
  · cases hx
  · split at hy
    · cases hy
    · obtain rfl := Option.some.inj hx
      obtain rfl := Option.some.inj hy
      exact hab

theorem reanchored_called {scope : ScopeId} {from_ dest : Location}
    {e : PendingKey × Option Location} (he : e ∈ m.reanchored scope from_ dest) {p : PendingMove}
    (hp : m.pending_moves[e.1]? = some p) {name : Segment} (hn : p.source.getLast? = some name) :
    (e.2.getD p.source).getLast? = some name := by
  obtain ⟨a, ha, hx⟩ := List.mem_filterMap.mp he
  have hmem : a ∈ m.pending_moves.toList :=
    ((List.takeWhile_sublist _).trans (List.dropWhile_sublist _)).subset (List.mem_filter.mp ha).1
  dsimp only at hx
  split at hx
  · cases hx
  · rename_i hs
    obtain rfl := Option.some.inj hx
    obtain rfl : a.2 = p := Option.some.inj ((mem_toList.mp hmem).symm.trans hp)
    cases hr : m.rewritten_source a.2 (m.pending_from a.2) from_ dest with
    | none => exact hn
    | some suffix => exact rewritten_called (by simpa using hs) hr hn

theorem reanchor_calm (scope : ScopeId) (from_ dest : Location) :
    Calms k m (m.reanchor_pending_sources scope from_ dest) := by
  -- the halves still to be rewritten are the ones the list was made of
  have along : ∀ (l : List (PendingKey × Option Location)) (m₁ : Monitor), (l.map (·.1)).Nodup →
      (∀ e ∈ l, e ∈ m.reanchored scope from_ dest) →
      (∀ e ∈ l, m₁.pending_moves[e.1]? = m.pending_moves[e.1]?) →
      Calms k m₁ (l.foldl (fun m e => m.modify_half e.1 fun p =>
        { p with source := e.2.getD p.source, dirty := true }) m₁) := by
    intro l
    induction l with
    | nil => exact fun _ _ _ _ => .refl
    | cons e l ih =>
      intro m₁ hnd hmem hsame
      obtain ⟨hne, hnd⟩ := List.nodup_cons.mp hnd
      rw [List.foldl_cons]
      have hstep : Calm k m₁ (m₁.modify_half e.1 fun p =>
          { p with source := e.2.getD p.source, dirty := true }) := by
        have heq : (m₁.modify_half e.1 fun p =>
            { p with source := e.2.getD p.source, dirty := true }) =
            m₁.modify_half e.1 fun p => { p with
              source := if (e.2.getD p.source).getLast? = p.source.getLast? ∨ p.source = []
                then e.2.getD p.source else p.source
              dirty := true } := by
          cases hp : m₁.pending_moves[e.1]? with
          | none => rw [Monitor.modify_half, Monitor.modify_half, modify_absent hp, modify_absent hp]
          | some p =>
            have hp' := (hsame e (by simp)).symm.trans hp
            refine congrArg (fun t => { m₁ with pending_moves := t }) ?_
            refine ExtTreeMap.ext_getElem? fun key => ?_
            rw [get_modify, get_modify]
            split
            · rename_i hk
              subst hk
              rw [hp, Option.map_some, Option.map_some]
              congr 2
              symm
              apply if_pos
              cases hl : p.source.getLast? with
              | none => exact .inr (List.getLast?_eq_none_iff.mp hl)
              | some name => exact .inl (reanchored_called (hmem e (by simp)) hp' hl)
            · rfl
        rw [heq]
        refine .remark ⟨fun _ => rfl, fun _ => rfl, fun _ _ => rfl, fun _ => rfl, fun p name hn => ?_⟩
        dsimp only
        split
        · rename_i hl
          rcases hl with hl | hl
          · exact hl.trans hn
          · rw [hl] at hn
            cases hn
        · exact hn
      refine .head hstep (ih _ hnd (fun e' he' => hmem e' (by simp [he'])) fun e' he' => ?_)
      have hk : e.1 ≠ e'.1 := by
        intro he
        apply hne
        exact List.mem_map.mpr ⟨e', he', he.symm⟩
      rw [Monitor.modify_half, get_modify, if_neg hk]
      exact hsame e' (by simp [he'])
  exact along _ m (reanchored_keys scope from_ dest) (fun _ h => h) fun _ _ => rfl

theorem escalate_calm (scope : ScopeId) :
    Calms k m (m.escalate_stale_destination scope) :=
  (dirty_touching_calm scope [] none none).trans
    ((dirty_held_calm (some scope)).trans (stand_counted_cover_calm scope))

theorem owed_descent_calm {src : WatchId} (hk : ∀ a, k = some a → a.watch ≠ src) :
    Calms k m (match m.owed_descents[src]? with
      | some descent =>
        { m with owed_descents := m.owed_descents.erase src }.apply_descent src descent
      | none => m) := by
  split
  · exact (Calm.ledger .disown).once.trans (apply_descent_calm _ hk)
  · exact .refl

theorem settle_moved_source_calm (scope : ScopeId) {src : WatchId} (dest : Location)
    (dirtied : Bool) (hk : ∀ a, k = some a → a.watch ≠ src) : Calms k m (m.settle_moved_source scope src dest dirtied) := by
  unfold Monitor.settle_moved_source
  refine .trans ?_ (owed_descent_calm hk)
  split
  · refine (emit_rescan_calm scope dest).trans ?_
    dsimp only
    split
    · exact start_reinstall_calm hk
    · exact inherit_rearm_calm src
  · exact .refl

/-! ### Fresh installs -/

theorem mark_fresh_install_calm (scope : ScopeId) (fresh : Option WatchId) :
    Calms k m (m.mark_fresh_install scope fresh) := by
  unfold Monitor.mark_fresh_install
  refine (mark_bootstrap_loss_calm scope).trans ?_
  split
  · exact (Calm.ledger .darken).once
  · exact .refl

theorem settle_dark_install_calm (dir : WatchId) (scope : ScopeId) (entries : List DirEntry) :
    Calms k m (m.settle_dark_install dir scope entries) := by
  unfold Monitor.settle_dark_install
  split
  · exact .refl
  · have h : Calms k m { m with dark_installs := m.dark_installs.erase dir } :=
      (Calm.ledger .lighten).once
    dsimp only
    split
    · exact h
    · exact h.trans (saw_rescan_calm scope)

theorem defer_stat_descent_calm (parent : WatchId) (name : Segment) (descent : StatDescent) :
    Calms k m (m.defer_stat_descent parent name descent) := by
  unfold Monitor.defer_stat_descent
  split
  · exact .refl
  · split
    · exact .refl
    · exact (Calm.ledger .owe).once

end Proto
