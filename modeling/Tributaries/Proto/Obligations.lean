import Tributaries.Proto.Actions
import Tributaries.Proto.Barrier

/-! # What keeps a scope unsettled

  Every entry that keeps a scope unsettled has something outstanding that
  will release it.  For arms, reads, holds and latent reads this is read
  off the invariants; a marker needs one of its own, which follows its
  directory from the arm of the grafted root to the listing that stages it.
-/

open Std Collections SlotForest Forest

namespace Proto

variable {m m' : Monitor} {g : Ghost} {c c' : Moment} {x : WatchId} {n n' : WatchNode}

/-! ### Profiles -/

/-- The profiles of the scopes are the same. -/
structure Profiled (m m' : Monitor) : Prop where
  profiles : m'.scope_profiles = m.scope_profiles
  capabilities : m'.capabilities = m.capabilities

theorem Profiled.descends (h : Profiled m m') (t : ScopeId) :
    m'.scope_descends t = m.scope_descends t := by
  simp only [Monitor.scope_descends, Monitor.scope_profile, h.profiles, h.capabilities]

/-- A reprofile reaches one scope only. -/
theorem reprofile_other (scope : ScopeId) (caps : Capabilities) {t : ScopeId} (hne : t ≠ scope) :
    (m.reprofile_root scope caps).scope_descends t = m.scope_descends t := by
  have other : ∀ bridge : Map ScopeId BridgeFlags,
      Monitor.scope_descends { m with
        scope_profiles := m.scope_profiles.insert scope caps, bridge := bridge } t =
      m.scope_descends t := by
    intro bridge
    simp only [Monitor.scope_descends, Monitor.scope_profile, get_insert, if_neg (Ne.symm hne)]
  unfold Monitor.reprofile_root
  dsimp only
  split
  · rfl
  · split
    · exact other _
    · obtain ⟨bridge, hb⟩ := Monitor.bootstrap_shape
        (m := { m with scope_profiles := m.scope_profiles.insert scope caps }) scope
      rw [hb]
      split
      · obtain ⟨bridge', hf⟩ := Monitor.fresh_rearm_shape (m := { m with
          scope_profiles := m.scope_profiles.insert scope caps, bridge := bridge }) scope
        rw [hf]
        exact other _
      · exact other _

theorem Edit.descends (h : Inv c) (e : Edit c c') {t : ScopeId} (hr : c.m.roots[t]? ≠ none) :
    c'.m.scope_descends t = c.m.scope_descends t := by
  cases e with
  | @register m g scope mask caps hw hr' =>
    obtain ⟨_, _, _, _, -, -, -, -, -, -, -, -, he⟩ := Monitor.register_eq mask caps hr'
    have hne : scope ≠ t := by
      intro hs
      subst hs
      exact hr hr'
    simp only [he, Monitor.scope_descends, Monitor.scope_profile, get_insert, if_neg hne]
  | @plant m g parent scope name is_dir identity hw hp ha hs =>
    have hpn : parent ≠ m.watch_ids.next := by
      intro hp
      exact Nat.lt_irrefl _ (hp ▸ ha.minted)
    have he := Monitor.plant_eq scope name is_dir identity hpn
    exact Profiled.descends ⟨by rw [he], by rw [he]⟩ t
  | reserve => rfl
  | @graft m g scope reserved last old_root =>
    obtain ⟨_, he, -⟩ := m.graft_eq scope reserved last old_root
    exact Profiled.descends ⟨by rw [he], by rw [he]⟩ t
  | @hold m g scope src parent name hw ht hp hs =>
    obtain ⟨_, _, _, -, -, he⟩ := Monitor.take_source_eq scope hp (h.unheld hp hs)
    exact Profiled.descends ⟨by rw [he], by rw [he]⟩ t
  | @rekey m g child new_parent new_name =>
    obtain ⟨_, he⟩ := m.rekey_eq child new_parent new_name
    exact Profiled.descends ⟨by rw [he], by rw [he]⟩ t
  | uproot => rfl
  | @remove m g walk id stack node =>
    obtain ⟨_, _, _, -, -, he, -⟩ := m.remove_node_eq id node walk.erased
    exact Profiled.descends ⟨by rw [he], by rw [he]⟩ t

/-- A registered scope keeps its profile, unless it is reprofiled. -/
theorem Effect.descends (h : Inv c) (e : Effect c c') {t : ScopeId} (hr : c.m.roots[t]? ≠ none) :
    c'.m.scope_descends t = c.m.scope_descends t ∨ (c.g.strict = true → Unadopted c.m t) := by
  cases e with
  | edit e => exact .inl (e.descends h hr)
  | mark e =>
    apply Or.inl
    cases e with
    | record_marker => rfl
    | @stage m g dir scope =>
      obtain ⟨_, _, he, -⟩ := stage_adoption_eq (m := m) dir scope
      exact Profiled.descends ⟨by rw [he], by rw [he]⟩ t
    | @take_marker m g parent scope =>
      have he := (m.take_adoption_marker_eq parent scope).1
      exact Profiled.descends ⟨by rw [he], by rw [he]⟩ t
    | unstage => rfl
  | @deliver m m' g e =>
    apply Or.inl
    show m'.scope_descends t = m.scope_descends t
    rw [e.shape]
    rfl
  | @ledger m m' g e =>
    apply Or.inl
    show m'.scope_descends t = m.scope_descends t
    rw [e.shape]
    rfl
  | @work m m' g e =>
    apply Or.inl
    show m'.scope_descends t = m.scope_descends t
    rw [e.shape]
    rfl
  | @ask m g parent scope name =>
    obtain ⟨_, _, _, _, _, -, -, -, he⟩ := queue_stat_eq (m := m) parent scope name
    exact .inl (Profiled.descends ⟨by rw [he], by rw [he]⟩ t)
  | @ack m g id =>
    obtain ⟨_, _, _, he⟩ := m.set_state_shape id .live
    exact .inl (Profiled.descends ⟨by rw [he], by rw [he]⟩ t)
  | @finish m g req dir =>
    obtain ⟨_, _, _, he⟩ := (m.forget_read req).set_state_shape dir .live
    apply Or.inl
    show ((m.forget_read req).set_state dir .live).scope_descends t = m.scope_descends t
    rw [he]
    rfl
  | @reset m g root =>
    obtain ⟨_, _, _, _, _, he⟩ := m.reset_root_shape root
    exact .inl (Profiled.descends ⟨by rw [he], by rw [he]⟩ t)
  | @close_drop m g walk =>
    apply Or.inl
    show (m.discharge walk).1.scope_descends t = m.scope_descends t
    obtain he | ⟨_, d₁, d₂⟩ | l := discharge_cases (m := m) walk
    · rw [he]
    · rw [d₂.shape, d₁.shape]
      rfl
    · rw [l.shape]
      rfl
  | @park m g scope cookie pending =>
    obtain ⟨_, he⟩ := m.park_shape scope cookie pending
    exact .inl (Profiled.descends ⟨by rw [he], by rw [he]⟩ t)
  | @release m g scope src =>
    obtain ⟨_, _, he⟩ := m.release_hold_shape scope src
    exact .inl (Profiled.descends ⟨by rw [he], by rw [he]⟩ t)
  | @reprofile m g scope caps hb =>
    by_cases hs : t = scope
    · subst hs
      exact .inr hb
    · exact .inl (reprofile_other scope caps hs)
  | @dispatch m g action rest =>
    obtain ⟨_, -, he⟩ := Monitor.dispatch_shape (m := { m with actions := rest }) action
    exact .inl (Profiled.descends ⟨by rw [he], by rw [he]⟩ t)
  | @forget_registration m g scope hr' =>
    apply Or.inl
    have hne : scope ≠ t := by
      intro hs
      subst hs
      exact hr hr'
    simp only [Monitor.forget_registration, Monitor.scope_descends, Monitor.scope_profile,
      get_erase, if_neg hne]
  | _ => exact .inl rfl

/-! ### Markers -/

theorem Turn.same (t : Turn c c' x n n') : n'.scope = n.scope ∧ n'.is_dir = n.is_dir := by
  cases t <;> exact ⟨rfl, rfl⟩

/-- A watch is live once its arm or its read was answered. -/
theorem Turn.live (t : Turn c c' x n n') (hs : n'.state = .live) : n.state = .live ∨
    ∃ listing, c'.g.answer = some ⟨x, listing⟩ := by
  cases t with
  | ack _ _ _ ha => exact .inr ⟨none, ha⟩
  | finish _ ha => exact .inr ha
  | read => cases hs
  | dirty => cases hs
  | count => cases hs
  | reprove => cases hs
  | reset => cases hs
  | _ => exact .inl hs

/-- An answer is worked off until its watch is at rest. -/
theorem Effect.working (e : Effect c c') {a : Answer} (ha : c.g.answer = some a) :
    c'.g.answer = some a ∨ c'.m = c.m ∧ AtRest c.m a.watch := by
  cases e with
  | edit e => cases e <;> exact .inl ha
  | mark e => cases e <;> exact .inl ha
  | ack hn =>
    rw [ha] at hn
    cases hn
  | finish hn =>
    rw [ha] at hn
    cases hn
  | rest hr hrest =>
    rw [show _ = some a from ha] at hr
    obtain rfl := Option.some.inj hr
    exact .inr ⟨rfl, hrest⟩
  | _ => exact .inl ha

/-- A marker stands at a directory of a descending scope; once the directory is
    live its marker is staged, unless its answer is still worked off. -/
structure Marked (c : Moment) (x : WatchId) (n : WatchNode) : Prop where
  is_dir : n.is_dir = true
  descends : c.m.scope_descends n.scope = true
  waiting : n.state = .live → c.m.staged_adoptions.contains (n.scope, x) = true ∨
    ∃ listing, c.g.answer = some ⟨x, listing⟩

/-- Every marker of a registered scope is marked so. -/
def AllMarked (c : Moment) : Prop :=
  ∀ (x : WatchId) (marker : AdoptionMarker) (n : WatchNode),
    c.m.pending_adoptions[x]? = some marker → c.m.nodes[x]? = some n →
      c.m.roots[n.scope]? ≠ none → Marked c x n

/-- What becomes of a marker that an effect does not write. -/
theorem Effect.keeps_marked (h : Valid c) (hs : c.g.strict = true) (hm : AllMarked c)
    (e : Effect c c') {marker : AdoptionMarker} (hp : c.m.pending_adoptions[x]? = some marker)
    (hn' : c'.m.nodes[x]? = some n')
    (hr : c'.m.roots[n'.scope]? ≠ none)
    (hst : c.m.staged_adoptions.contains (n'.scope, x) = true →
      c'.m.staged_adoptions.contains (n'.scope, x) = true) : Marked c' x n' := by
  rcases e.turn h.toInv hn' with ⟨n, hn, t⟩ | b
  · obtain ⟨hsc, hdir⟩ := t.same
    have hroot : c.m.roots[n.scope]? ≠ none := by
      intro hnone
      rcases e.rootless h.toInv hnone with hnone' | ⟨hw, -⟩
      · exact hr (hsc ▸ hnone')
      · -- a live node hangs below the root of its scope
        obtain ⟨_, -, -, -, r, -, hr⟩ := Monitor.chain_of (h.toInv.sound hw) hn
        rw [hnone] at hr
        cases hr
    obtain ⟨h₁, h₂, h₃⟩ := hm x marker n hp hn hroot
    refine ⟨hdir ▸ h₁, ?_, fun hlive => ?_⟩
    · rcases e.descends h.toInv hroot with he | hu
      · rw [hsc, he, h₂]
      · have := hu hs x n hn rfl
        rw [hp] at this
        cases this
    · rcases t.live hlive with hlive | hans
      · rcases h₃ hlive with hstaged | ⟨listing, hans⟩
        · rw [hsc] at hst
          exact .inl (hsc ▸ hst hstaged)
        · rcases e.working hans with hans' | ⟨he, hrest⟩
          · exact .inr ⟨listing, hans'⟩
          · have := hrest n hn h₁ h₂ (contains_iff.mpr ⟨marker, hp⟩) hlive
            rw [hsc] at hst
            exact .inl (hsc ▸ hst this)
      · exact .inr hans
  · exact absurd b.dead (h.adopted.live x marker hp)

theorem Effect.all_marked (h : Valid c) (hs : c.g.strict = true) (hm : AllMarked c)
    (e : Effect c c') : AllMarked c' := by
  intro x marker n' hp' hn' hr
  rcases e.unmarked h.toInv with k | ⟨id, node, r⟩ | u
  · cases k with
    | @record_marker m g parent name adopted identity scope node hn hsc hst hd hds =>
      by_cases hx : parent = x
      · subst hx
        obtain rfl := Option.some.inj (hn.symm.trans hn')
        refine ⟨hd, hsc ▸ hds, fun hlive => absurd hlive hst.2⟩
      · have hp : m.pending_adoptions[x]? = some marker := by
          have hp' : (m.pending_adoptions.insert parent ⟨name, adopted, identity⟩)[x]? =
            some marker := hp'
          rwa [get_insert, if_neg hx] at hp'
        exact e.keeps_marked h hs hm hp hn' hr id
    | @stage m g dir scope =>
      obtain ⟨_, staged, he, -, -, hkeep⟩ := stage_adoption_eq (m := m) dir scope
      have hpend : (m.stage_adoption dir scope).pending_adoptions = m.pending_adoptions := by
        rw [he]
      have hstage : (m.stage_adoption dir scope).staged_adoptions = staged := by rw [he]
      refine e.keeps_marked h hs hm (hpend ▸ hp') hn' hr fun hc => ?_
      obtain ⟨seq, hseq⟩ := contains_iff.mp hc
      show (m.stage_adoption dir scope).staged_adoptions.contains (n'.scope, x) = true
      rw [hstage]
      exact contains_iff.mpr ⟨seq, hkeep _ seq hseq⟩
    | @take_marker m g parent scope =>
      have hp := hp'
      rw [get_take_marker] at hp
      split at hp
      · cases hp
      · rename_i hne
        refine e.keeps_marked h hs hm hp hn' hr fun hc => ?_
        show (m.take_adoption_marker parent scope).1.staged_adoptions.contains _ = true
        obtain ⟨seq, hseq⟩ := contains_iff.mp hc
        refine contains_iff.mpr ⟨seq, ?_⟩
        rw [(m.take_adoption_marker_eq parent scope).1]
        dsimp only
        split
        · rw [get_erase, if_neg]
          · exact hseq
          · intro he
            exact hne (Prod.mk.inj he).2
        · exact hseq
    | @unstage m g parent scope hnone =>
      refine e.keeps_marked h hs hm hp' hn' hr fun hc => ?_
      obtain ⟨seq, hseq⟩ := contains_iff.mp hc
      refine contains_iff.mpr ⟨seq, ?_⟩
      show (m.staged_adoptions.erase (scope, parent))[(n'.scope, x)]? = some seq
      rw [get_erase, if_neg]
      · exact hseq
      · intro he
        have hx : parent = x := (Prod.mk.inj he).2
        rw [← hx, show m.pending_adoptions[parent]? = none from hnone] at hp'
        cases hp'
  · obtain @⟨m, g, walk, _, stack, _, hw, hst, hn⟩ := r
    obtain ⟨_, _, _, -, -, he, -⟩ := m.remove_node_eq id node walk.erased
    have hp := hp'
    rw [he] at hp
    dsimp only at hp
    rw [get_erase] at hp
    split at hp
    · cases hp
    · rename_i hne
      refine e.keeps_marked h hs hm hp hn' hr fun hc => ?_
      show (m.remove_node id node walk.erased).1.staged_adoptions.contains _ = true
      rw [he]
      dsimp only
      obtain ⟨seq, hseq⟩ := contains_iff.mp hc
      refine contains_iff.mpr ⟨seq, ?_⟩
      split
      · rw [get_erase, if_neg]
        · exact hseq
        · intro he
          exact hne (Prod.mk.inj he).2
      · exact hseq
  · refine e.keeps_marked h hs hm (u.pending ▸ hp') hn' hr fun hc => ?_
    rw [u.staged]
    exact hc

/-- No effect changes what the driver promised. -/
theorem Effect.strict (e : Effect c c') : c'.g.strict = c.g.strict := by
  cases e with
  | edit e => cases e <;> rfl
  | mark e => cases e <;> rfl
  | _ => rfl

/-! ### Every run -/

/-- Each entry that keeps a scope unsettled has something outstanding that
    releases it. -/
structure Obliged (s : Session) : Prop where
  arming : ∀ (x : WatchId) (n : WatchNode) (rearm reprove : Bool), s.m.nodes[x]? = some n →
    n.state = .arming rearm reprove →
      Queued s.m x n.attempt ∨ (x, n.attempt) ∈ s.out ∨ x ∈ s.m.held_sources
  reading : ∀ (x : WatchId) (n : WatchNode) (req : ReqId) (kind : EnumKind) (attempts : Nat)
    (dirty : Bool), s.m.nodes[x]? = some n → n.state = .enumerating req kind attempts dirty →
      s.m.pending_enumerate[req]? = some x
  read : ∀ (req : ReqId) (x : WatchId), s.m.pending_enumerate[req]? = some x →
    ∃ n kind attempts dirty, s.m.nodes[x]? = some n ∧
      n.state = .enumerating req kind attempts dirty
  held : ∀ src ∈ s.m.held_sources, ∃ (key : PendingKey) (half : PendingMove),
    s.m.pending_moves[key]? = some half ∧ half.held = some src ∧
      s.m.scope_of src = some key.1 ∧ ∀ (key' : PendingKey) (half' : PendingMove),
        s.m.pending_moves[key']? = some half' → half'.held = some src → key' = key
  latent : ∀ (req : ReqId) (scope : ScopeId), s.m.latent_cold[req]? = some scope →
    ∃ x n attempts, s.m.pending_enumerate[req]? = some x ∧ s.m.nodes[x]? = some n ∧
      n.scope = scope ∧ n.state = .enumerating req .cold attempts true
  marker : ∀ (x : WatchId) (marker : AdoptionMarker), s.m.pending_adoptions[x]? = some marker →
    ∃ n : WatchNode, s.m.nodes[x]? = some n ∧
      ((∃ rearm reprove, n.state = .arming rearm reprove) ∨
        (∃ req kind attempts dirty, n.state = .enumerating req kind attempts dirty) ∨
        s.m.staged_adoptions.contains (n.scope, x) = true)
  settled : ∀ scope, s.m.coverage_settled scope = true ↔ s.m.outstanding scope = ∅

/-- The invariants between two calls of a run oblige each entry. -/
theorem obliged_of {s : Session} (h : Valid (s.moment true)) (hA : Arms (s.moment true))
    (hm : AllMarked (s.moment true)) (ht : Tallied s.m) : Obliged s where
  arming x n rearm reprove hn hs := by
    rcases hA.awaited x n rearm reprove hn hs with (hq | ho) | hh | htr | hw
    · exact .inl hq
    · exact .inr (.inl ho)
    · exact .inr (.inr hh)
    · cases htr
    · cases hw
  reading x n req kind attempts dirty hn hs :=
    h.reads.reading x req kind attempts dirty ((state_of_node hn).trans (congrArg some hs))
  read req x hp := by
    obtain ⟨-, kind, attempts, dirty, hs⟩ := h.reads.waiting req x hp
    obtain ⟨n, hn, hs⟩ := Option.map_eq_some_iff.mp hs
    exact ⟨n, kind, attempts, dirty, hn, hs⟩
  held src hsrc := by
    rcases h.holds.held_half src hsrc with htr | ⟨key, half, hk, hh⟩
    · cases htr
    · obtain ⟨scope, hsc⟩ := h.holds.held_live hsrc
      obtain ⟨-, hkey, -⟩ := h.holds.half_held key half src scope hk hh hsc
      refine ⟨key, half, hk, hh, hkey ▸ hsc, fun key' half' hk' hh' => ?_⟩
      exact h.holds.half_unique key' key half' half src scope hk' hk hh' hh hsc
  latent req scope hl := by
    obtain ⟨x, attempts, hp, hsc, hs⟩ := h.reads.latent req scope hl
    obtain ⟨n, hn, hsc⟩ := Monitor.scope_of_eq_some.mp hsc
    exact ⟨x, n, attempts, hp, hn, hsc, state_of_eq hn hs⟩
  marker x marker hx := by
    obtain ⟨n, hn⟩ := Option.ne_none_iff_exists'.mp (h.adopted.live x marker hx)
    have hroot : s.m.roots[n.scope]? ≠ none := by
      obtain ⟨_, -, -, -, r, -, hr⟩ := Monitor.chain_of (h.toInv.sound rfl) hn
      rw [show s.m.roots[n.scope]? = some r from hr]
      simp
    refine ⟨n, hn, ?_⟩
    cases hs : n.state with
    | arming rearm reprove => exact .inl ⟨rearm, reprove, rfl⟩
    | enumerating req kind attempts dirty => exact .inr (.inl ⟨req, kind, attempts, dirty, rfl⟩)
    | live =>
      rcases (hm x marker n hx hn hroot).waiting hs with hstaged | ⟨listing, ha⟩
      · exact .inr (.inr hstaged)
      · cases ha
  settled scope := settled_iff ht scope

/-- The barrier can never wedge: after every call of every run whose driver keeps
    the interface's promises, each entry that keeps a scope unsettled has
    something outstanding that releases it. -/
theorem barrier_obliged {caps : Capabilities} {inputs : List Input}
    (hd : (Session.new caps).Drives true inputs) : Obliged ((Session.new caps).run inputs) := by
  have step : ∀ c c', Valid c → (c.g.strict = true ∧ Arms c ∧ AllMarked c) → Effect c c' →
      (c'.g.strict = true ∧ Arms c' ∧ AllMarked c') := by
    rintro c c' hv ⟨hs, hA, hm⟩ e
    exact ⟨e.strict.trans hs, e.arms hv.toInv hA, e.all_marked hv hs hm⟩
  have again : ∀ m g call start, (Ghost.strict g = true ∧ Arms ⟨m, g⟩ ∧ AllMarked ⟨m, g⟩) →
      (Ghost.strict { g with call := call, start := start } = true ∧
        Arms ⟨m, { g with call := call, start := start }⟩ ∧
        AllMarked ⟨m, { g with call := call, start := start }⟩) := by
    rintro m g call start ⟨hs, hA, hm⟩
    refine ⟨hs, ⟨hA.minted, hA.issued, hA.owed, hA.awaited⟩, fun x marker n hp hn hr => ?_⟩
    obtain ⟨h₁, h₂, h₃⟩ := hm x marker n hp hn hr
    exact ⟨h₁, h₂, h₃⟩
  have start : ((Session.new caps).moment true).g.strict = true ∧
      Arms ((Session.new caps).moment true) ∧ AllMarked ((Session.new caps).moment true) := by
    refine ⟨rfl, ⟨?_, ?_, ?_, ?_⟩, ?_⟩ <;>
      simp [Session.moment, Session.new, Monitor.new, Ghost.new, Awaited, Queued, AllMarked]
  obtain ⟨hv, -, hA, hm⟩ := Session.run_keeps step again (valid_new caps) start hd
  exact obliged_of hv hA hm ((Session.kept_new caps).run hd).tallied

/-- The same, of a root that was widened: its marker waits for the arm of the
    grafted root. -/
theorem widened_obliged : Obliged ((Session.new ⟨false, false⟩).run widening) :=
  barrier_obliged widening_drives

end Proto
