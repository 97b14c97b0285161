import Tributaries.Umbrella.Departures

/-! # Runs of the engine

  The calls an owner makes, under the order it keeps: one plan at a time,
  committed or aborted before anything it relies on is touched, on a handle
  no live root has, and after the check that the key the source reports
  still subsumes what was planned.  Every run keeps the invariant, and no
  `expect` fails but the one of the id counter.
-/

open Std Collections Region

namespace Umbrella

open Proto (ScopeId)

/-! ### Calls -/

inductive Call (C V H : Type) where
  | plan_watch (key : List C) (value : V) (interest : Interest) (globs : RootGlobs)
  | fs_path_preserves_plan (fs_root_key : List C)
  | commit_watch (fs_root : H) (fs_root_key : List C) (globs : RootGlobs)
  | abort_watch
  | plan_unwatch (sub : Subscription)
  | force_remove_root (handle : H)
  | rebind_root (old new : H)
  | set_retained_cover (handle : H) (cover : Option (List (List C)))
  | degrade_retained_cover (handle : H)

def Call.is_plan {C V H : Type} : Call C V H → Bool
  | .plan_watch .. => true
  | _ => false

/-- The engine with the plan that is out, the keys the check answered true
    for since it was made, and what the watches were called with. -/
structure Session (C V H : Type) (R T : Type → Type) [Ord H] where
  engine : Subsumer C V H R T
  plan : Option (WatchOutcome H)
  checked : List (List C)
  carried : Carried V

variable {C V H : Type} {R T : Type → Type}
variable [DecidableEq C] [Ord C] [TransOrd C] [LawfulEqOrd C]
  [DecidableEq H] [Ord H] [TransOrd H] [LawfulEqOrd H] [Radix C R] [Trie ScopeId T]

namespace Session

def start (instance_id : InstanceId) : Session C V H R T := ⟨.new instance_id, none, [], fun _ => none⟩

def step (s : Session C V H R T) : Call C V H → Except Panic (Session C V H R T)
  | .plan_watch key value interest globs =>
    match s.engine.plan_watch key value interest globs with
    | .error e => .error e
    | .ok (.error _, engine) => .ok { s with engine := engine }
    | .ok (.ok outcome, engine) =>
      .ok ⟨engine, some outcome, [],
        Function.update s.carried outcome.sub (some (value, interest))⟩
  | .fs_path_preserves_plan key =>
    match s.plan with
    | none => .ok s
    | some outcome =>
      if s.engine.fs_path_preserves_plan key outcome.planned_unwatch then
        .ok { s with checked := key :: s.checked }
      else .ok s
  | .commit_watch fs_root key globs =>
    match s.plan with
    | none => .ok s
    | some outcome =>
      match s.engine.commit_watch outcome fs_root key globs with
      | .error e => .error e
      | .ok engine => .ok ⟨engine, none, [], s.carried⟩
  | .abort_watch =>
    match s.plan with
    | none => .ok s
    | some outcome => .ok ⟨s.engine.abort_watch outcome, none, [], s.carried⟩
  | .plan_unwatch sub =>
    match s.engine.plan_unwatch sub with
    | .error e => .error e
    | .ok (_, engine) => .ok { s with engine := engine }
  | .force_remove_root handle =>
    match s.engine.force_remove_root handle with
    | .error e => .error e
    | .ok (_, engine) => .ok { s with engine := engine }
  | .rebind_root old new => .ok { s with engine := s.engine.rebind_root old new }
  | .set_retained_cover handle cover =>
    .ok { s with engine := s.engine.set_retained_cover handle cover }
  | .degrade_retained_cover handle =>
    .ok { s with engine := s.engine.degrade_retained_cover handle }

def run (s : Session C V H R T) : List (Call C V H) → Except Panic (Session C V H R T)
  | [] => .ok s
  | c :: calls =>
    match s.step c with
    | .error e => .error e
    | .ok s => s.run calls

/-- The commit of a plan relies on what the call would take away: the
    covering root, a subsumed root, or a member of a subsumed cohort. -/
def Relies (engine : Subsumer C V H R T) : WatchOutcome H → Call C V H → Prop
  | .covered fs_root _ _, .plan_unwatch sub => cohort_of engine.root_subs fs_root = [sub]
  | .covered fs_root _ _, .force_remove_root handle => handle = fs_root
  | .covered fs_root _ _, .rebind_root old _ => old = fs_root
  | .widen repointed _ _, .plan_unwatch sub => sub ∈ repointed
  | .widen _ unwatch _, .force_remove_root handle => handle ∈ unwatch
  | .widen _ unwatch _, .rebind_root old _ => old ∈ unwatch
  | _, _ => False

/-- A commit is made on the covering root, or at a checked key and on a
    handle no live root has (or, retargeted in place, a subsumed one). -/
def Committable (s : Session C V H R T) (fs_root : H) (key : List C) : WatchOutcome H → Prop
  | .covered root _ _ => fs_root = root
  | .widen _ unwatch _ =>
    (s.engine.by_handle[fs_root]? = none ∨ fs_root ∈ unwatch) ∧ key ∈ s.checked
  | .disjoint _ => s.engine.by_handle[fs_root]? = none ∧ key ∈ s.checked

instance (engine : Subsumer C V H R T) (outcome : WatchOutcome H) (c : Call C V H) :
    Decidable (Relies engine outcome c) :=
  match outcome, c with
  | .covered fs_root _ _, .plan_unwatch sub => decEq (cohort_of engine.root_subs fs_root) [sub]
  | .covered fs_root _ _, .force_remove_root handle => decEq handle fs_root
  | .covered fs_root _ _, .rebind_root old _ => decEq old fs_root
  | .widen repointed _ _, .plan_unwatch sub => inferInstanceAs (Decidable (sub ∈ repointed))
  | .widen _ unwatch _, .force_remove_root handle => inferInstanceAs (Decidable (handle ∈ unwatch))
  | .widen _ unwatch _, .rebind_root old _ => inferInstanceAs (Decidable (old ∈ unwatch))
  | .covered .., .plan_watch .. | .covered .., .fs_path_preserves_plan _
  | .covered .., .commit_watch .. | .covered .., .abort_watch
  | .covered .., .set_retained_cover .. | .covered .., .degrade_retained_cover _
  | .widen .., .plan_watch .. | .widen .., .fs_path_preserves_plan _
  | .widen .., .commit_watch .. | .widen .., .abort_watch
  | .widen .., .set_retained_cover .. | .widen .., .degrade_retained_cover _
  | .disjoint _, _ => isFalse id

instance (s : Session C V H R T) (fs_root : H) (key : List C) (outcome : WatchOutcome H) :
    Decidable (s.Committable fs_root key outcome) :=
  match outcome with
  | .covered root _ _ => decEq fs_root root
  | .widen _ unwatch _ => inferInstanceAs
      (Decidable ((s.engine.by_handle[fs_root]? = none ∨ fs_root ∈ unwatch) ∧ key ∈ s.checked))
  | .disjoint _ => inferInstanceAs
      (Decidable (s.engine.by_handle[fs_root]? = none ∧ key ∈ s.checked))

/-- The order the owner keeps. -/
def Allowed (s : Session C V H R T) (c : Call C V H) : Prop :=
  (∀ outcome ∈ s.plan, ¬ Relies s.engine outcome c) ∧
  match c with
  | .plan_watch .. => s.plan = none
  | .commit_watch fs_root key _ => ∃ outcome ∈ s.plan, s.Committable fs_root key outcome
  | .rebind_root old new =>
    s.engine.by_handle[old]? = none ∨ s.engine.by_handle[new]? = none
  | _ => True

instance (s : Session C V H R T) (c : Call C V H) : Decidable (s.Allowed c) :=
  match c with
  | .plan_watch .. => inferInstanceAs (Decidable (_ ∧ s.plan = none))
  | .commit_watch fs_root key _ =>
    inferInstanceAs (Decidable (_ ∧ ∃ outcome ∈ s.plan, s.Committable fs_root key outcome))
  | .rebind_root old new => inferInstanceAs
      (Decidable (_ ∧ (s.engine.by_handle[old]? = none ∨ s.engine.by_handle[new]? = none)))
  | .fs_path_preserves_plan _ | .abort_watch | .plan_unwatch _ | .force_remove_root _
  | .set_retained_cover .. | .degrade_retained_cover _ => inferInstanceAs (Decidable (_ ∧ True))

/-- A run whose every call is allowed. -/
def Disciplined (s : Session C V H R T) : List (Call C V H) → Prop
  | [] => True
  | c :: calls => s.Allowed c ∧
    match s.step c with
    | .error _ => True
    | .ok s => s.Disciplined calls

instance decidableDisciplined (s : Session C V H R T) :
    (calls : List (Call C V H)) → Decidable (s.Disciplined calls)
  | [] => isTrue trivial
  | c :: calls =>
    match h : s.step c with
    | .error _ => decidable_of_iff (s.Allowed c) (by rw [Disciplined, h]; exact (and_true _).symm.to_iff)
    | .ok s' =>
      have := decidableDisciplined s' calls
      decidable_of_iff (s.Allowed c ∧ s'.Disciplined calls) (by rw [Disciplined, h])

/-! ### The invariant of a session -/

/-- The engine is sound, and the plan that is out can be committed. -/
structure Kept (s : Session C V H R T) : Prop where
  sound : Sound s.engine s.carried
  planned : ∀ outcome, s.plan = some outcome → Planned s.engine outcome
  checked : ∀ outcome, s.plan = some outcome → ∀ key ∈ s.checked,
    s.engine.fs_path_preserves_plan key outcome.planned_unwatch = true

/-- What one call does besides: it keeps the subscriptions, it keeps what the
    minted ones carry, and only a plan mints. -/
structure Stepped (s s' : Session C V H R T) (c : Call C V H) : Prop where
  kept : Kept s'
  keeps : Keeps s.engine s'.engine
  carried : ∀ x : Subscription, x.scope < s.engine.next_sub → s'.carried x = s.carried x
  minted : s'.engine.next_sub.as_u64 ≤ s.engine.next_sub.as_u64 + [c].countP Call.is_plan

variable {s s' : Session C V H R T}

section
omit [TransOrd C] [LawfulEqOrd C] [LawfulEqOrd H]

theorem start_kept (instance_id : InstanceId) : Kept (start instance_id : Session C V H R T) := by
  refine ⟨Subsumer.new_sound instance_id, ?_, ?_⟩
  · intro outcome h
    cases h
  · intro outcome h
    cases h

/-- A call that touches nothing the plan relies on. -/
theorem Kept.spared (h : Kept s) {engine : Subsumer C V H R T} (hs : Sound engine s.carried)
    (hspare : ∀ outcome, s.plan = some outcome →
      Spares s.engine engine outcome.planned_unwatch ∧ Planned engine outcome) :
    Kept { s with engine := engine } := by
  refine ⟨hs, fun outcome ho => (hspare outcome ho).2, ?_⟩
  intro outcome ho key hkey
  exact Subsumer.fs_path_preserves_plan_spared (hspare outcome ho).1 (h.checked outcome ho key hkey)

end

end Session

/-! ### Plans are spared -/

section
omit [TransOrd C] [LawfulEqOrd C] [DecidableEq H] [LawfulEqOrd H] [Trie ScopeId T]

/-- A covered plan can rely on its root where that is spared. -/
theorem Planned.covered {s s' : Subsumer C V H R T} {fs_root : H} {sub : Subscription}
    {outside : Bool} (h : Planned s (.covered fs_root sub outside)) (hs : Spares s s' [fs_root]) :
    Planned s' (.covered fs_root sub outside) := by
  obtain ⟨p, k, hp, hk, hle⟩ := h
  refine ⟨p, k, hs.pending ▸ hp, ?_, hle⟩
  rw [hs.handles fs_root (List.mem_singleton.mpr rfl)]
  exact hk

/-- A widening plan can rely on its roots where they and their cohorts are
    spared. -/
theorem Planned.widen {s s' : Subsumer C V H R T} {repointed : List Subscription} {u : List H}
    {sub : Subscription} (h : Planned s (.widen repointed u sub)) (hs : Spares s s' u)
    (hc : ∀ h ∈ u, cohort_of s'.root_subs h = cohort_of s.root_subs h) :
    Planned s' (.widen repointed u sub) := by
  obtain ⟨⟨p, hp⟩, hn, hm, hu⟩ := h
  refine ⟨⟨p, hs.pending ▸ hp⟩, hn, ?_, ?_⟩
  · intro x
    rw [hm]
    constructor
    · rintro ⟨h, hh, hx⟩
      exact ⟨h, hh, hc h hh ▸ hx⟩
    · rintro ⟨h, hh, hx⟩
      exact ⟨h, hh, hc h hh ▸ hx⟩
  · intro h hh
    rw [hs.handles h hh]
    exact hu h hh

end

section
omit [DecidableEq C] [Ord C] [TransOrd C] [LawfulEqOrd C] [DecidableEq H] [LawfulEqOrd H] [Radix C R] [Trie ScopeId T]

theorem Planned.disjoint {s s' : Subsumer C V H R T} {sub : Subscription}
    (h : Planned s (.disjoint sub)) (hp : s'.pending = s.pending) :
    Planned s' (.disjoint sub) := by
  obtain ⟨p, hs⟩ := h
  exact ⟨p, hp ▸ hs⟩

end

section
omit [TransOrd C] [LawfulEqOrd C] [DecidableEq H] [LawfulEqOrd H] [Trie ScopeId T]

theorem Spares.nil {s s' : Subsumer C V H R T} {u : List H} (h : Spares s s' u) :
    Spares s s' [] :=
  ⟨h.keys, fun _ _ _ hh => absurd hh List.not_mem_nil, fun _ hh => absurd hh List.not_mem_nil,
    h.pending⟩

end

/-! ### One call -/

namespace Session

variable {s s' : Session C V H R T}

section
omit [LawfulEqOrd C] [LawfulEqOrd H]

theorem step_plan_watch (h : Kept s) (key : List C) (value : V) (interest : Interest)
    (globs : RootGlobs) :
    (∃ s', s.step (.plan_watch key value interest globs) = .ok s' ∧
      Stepped s s' (.plan_watch key value interest globs)) ∨
    s.step (.plan_watch key value interest globs) = .error .id_space_exhausted ∧
      2 ^ 64 ≤ s.engine.next_sub.as_u64 + 1 := by
  unfold step
  rcases Subsumer.plan_watch_sound h.sound key value interest globs with
    ⟨refusal, he⟩ | ⟨outcome, engine, he, ha⟩ | ⟨he, hn⟩
  · left
    simp only [he]
    exact ⟨_, rfl, h, Keeps.refl _, fun _ _ => rfl, Nat.le_add_right ..⟩
  · left
    simp only [he]
    refine ⟨_, rfl, ⟨ha.sound, ?_, ?_⟩, ha.keeps, ?_, ?_⟩
    · intro o ho
      cases ho
      exact ha.planned
    · intro o ho key hkey
      cases hkey
    · intro x hx
      refine Function.update_of_ne ?_ ..
      rintro rfl
      exact ha.fresh hx
    · show engine.next_sub.as_u64 ≤ _
      rw [ha.minted]
      exact Nat.le_refl _
  · right
    simp only [he]
    exact ⟨trivial, hn⟩

theorem step_check (h : Kept s) (key : List C) :
    ∃ s', s.step (.fs_path_preserves_plan key) = .ok s' ∧
      Stepped s s' (.fs_path_preserves_plan key) := by
  unfold step
  dsimp only
  cases hp : s.plan with
  | none => exact ⟨s, rfl, h, Keeps.refl _, fun _ _ => rfl, Nat.le_refl _⟩
  | some outcome =>
    dsimp only
    by_cases hc : s.engine.fs_path_preserves_plan key outcome.planned_unwatch = true
    · rw [if_pos hc]
      refine ⟨_, rfl, ⟨h.sound, fun o ho => h.planned o (hp.trans ho), ?_⟩, Keeps.refl _,
        fun _ _ => rfl, Nat.le_refl _⟩
      intro o ho k hk
      rcases List.mem_cons.mp hk with rfl | hk
      · cases ho
        exact hc
      · exact h.checked o (hp.trans ho) k hk
    · rw [if_neg hc]
      exact ⟨s, rfl, h, Keeps.refl _, fun _ _ => rfl, Nat.le_refl _⟩

end

section
omit [LawfulEqOrd C]

/-- A commit the owner may make goes through. -/
theorem step_commit (h : Kept s) {fs_root : H} {key : List C} {globs : RootGlobs}
    (ha : s.Allowed (.commit_watch fs_root key globs)) :
    ∃ s', s.step (.commit_watch fs_root key globs) = .ok s' ∧
      Stepped s s' (.commit_watch fs_root key globs) := by
  obtain ⟨-, outcome, ho, hc⟩ := ha
  replace ho : s.plan = some outcome := ho
  have hp := h.planned outcome ho
  have hok : ∃ engine, s.engine.commit_watch outcome fs_root key globs = .ok engine ∧
      Sound engine s.carried ∧ Keeps s.engine engine ∧ engine.next_sub = s.engine.next_sub := by
    cases outcome with
    | covered root sub outside =>
      obtain rfl : fs_root = root := hc
      exact Subsumer.commit_covered_sound h.sound hp
    | widen repointed unwatch sub =>
      exact Subsumer.commit_widen_sound h.sound hp hc.1 (h.checked _ ho key hc.2) globs
    | disjoint sub =>
      exact Subsumer.commit_disjoint_sound h.sound hp hc.1 (h.checked _ ho key hc.2) globs
  obtain ⟨engine, he, hs, hk, hn⟩ := hok
  refine ⟨⟨engine, none, [], s.carried⟩, ?_, ⟨hs, ?_, ?_⟩, hk, fun _ _ => rfl, ?_⟩
  · unfold step
    simp only [ho, he]
  · intro o ho'
    cases ho'
  · intro o ho'
    cases ho'
  · show engine.next_sub.as_u64 ≤ _
    rw [hn]
    exact Nat.le_refl _

end

section
omit [TransOrd C] [LawfulEqOrd C] [LawfulEqOrd H]

/-- A call that applies at once, and spares what the plan relies on. -/
theorem stepped_spared (h : Kept s) {engine : Subsumer C V H R T} {c : Call C V H}
    (hs : Sound engine s.carried) (hk : Keeps s.engine engine)
    (hn : engine.next_sub = s.engine.next_sub)
    (hspare : ∀ outcome, s.plan = some outcome →
      Spares s.engine engine outcome.planned_unwatch ∧ Planned engine outcome) :
    Stepped s { s with engine := engine } c := by
  refine ⟨h.spared hs hspare, hk, fun _ _ => rfl, ?_⟩
  show engine.next_sub.as_u64 ≤ _
  rw [hn]
  exact Nat.le_add_right ..

end

section
omit [LawfulEqOrd C] [LawfulEqOrd H]

theorem step_abort (h : Kept s) :
    ∃ s', s.step .abort_watch = .ok s' ∧ Stepped s s' .abort_watch := by
  unfold step
  dsimp only
  cases hp : s.plan with
  | none => exact ⟨s, rfl, h, Keeps.refl _, fun _ _ => rfl, Nat.le_refl _⟩
  | some outcome =>
    obtain ⟨hs, hk⟩ := Subsumer.abort_watch_sound h.sound outcome
    refine ⟨_, rfl, ⟨hs, ?_, ?_⟩, hk, fun _ _ => rfl, Nat.le_refl _⟩
    · intro o ho
      cases ho
    · intro o ho
      cases ho

end

section
omit [LawfulEqOrd C]

theorem step_plan_unwatch (h : Kept s) {sub : Subscription}
    (ha : s.Allowed (.plan_unwatch sub)) :
    ∃ s', s.step (.plan_unwatch sub) = .ok s' ∧ Stepped s s' (.plan_unwatch sub) := by
  obtain ⟨o, engine, he, hs, hk, hn⟩ := Subsumer.plan_unwatch_sound h.sound sub
  refine ⟨{ s with engine := engine }, ?_, stepped_spared h hs hk hn ?_⟩
  · unfold step
    simp only [he]
  · intro outcome ho
    have hrel := ha.1 outcome ho
    have hp := h.planned outcome ho
    cases outcome with
    | covered root new outside =>
      have hspare : Spares s.engine engine [root] := by
        refine Subsumer.plan_unwatch_spares h.sound ?_ he
        intro h' hh hmem hsv
        rw [List.mem_singleton.mp hh] at hmem hsv
        -- the cohort would be the departing subscription alone
        apply hrel
        have hall : ∀ x ∈ cohort_of s.engine.root_subs root, x = sub := by
          intro x hx
          by_contra hne
          have hx' : x ∈ s.engine.survivors sub root :=
            List.mem_filter.mpr ⟨hx, decide_eq_true hne⟩
          rw [hsv] at hx'
          cases hx'
        refine List.perm_singleton.mp ((List.perm_ext_iff_of_nodup (h.sound.housed.nodup root)
          (List.nodup_singleton sub)).mpr ?_)
        intro x
        rw [List.mem_singleton]
        exact ⟨hall x, fun hx => hx ▸ hmem⟩
      exact ⟨hspare.nil, hp.covered hspare⟩
    | widen repointed unwatch new =>
      have hout : ∀ h' ∈ unwatch, sub ∉ cohort_of s.engine.root_subs h' := by
        intro h' hh hmem
        exact hrel ((hp.2.2.1 sub).mpr ⟨h', hh, hmem⟩)
      have hspare : Spares s.engine engine unwatch :=
        Subsumer.plan_unwatch_spares h.sound (fun h' hh hmem => absurd hmem (hout h' hh)) he
      exact ⟨hspare, hp.widen hspare fun h' hh =>
        Subsumer.plan_unwatch_cohorts h.sound (hout h' hh) he⟩
    | disjoint new =>
      have hspare : Spares s.engine engine [] :=
        Subsumer.plan_unwatch_spares h.sound (fun h' hh => absurd hh List.not_mem_nil) he
      exact ⟨hspare, hp.disjoint hspare.pending⟩

end

theorem step_force_remove_root (h : Kept s) {handle : H}
    (ha : s.Allowed (.force_remove_root handle)) :
    ∃ s', s.step (.force_remove_root handle) = .ok s' ∧
      Stepped s s' (.force_remove_root handle) := by
  obtain ⟨o, engine, he, hs, hk, hn⟩ := Subsumer.force_remove_root_sound h.sound handle
  refine ⟨{ s with engine := engine }, ?_, stepped_spared h hs hk hn ?_⟩
  · unfold step
    simp only [he]
  · intro outcome ho
    have hrel := ha.1 outcome ho
    have hp := h.planned outcome ho
    cases outcome with
    | covered root new outside =>
      have hspare := (Subsumer.force_remove_root_spares h.sound (u := [root])
        (fun hh => hrel (List.mem_singleton.mp hh)) he).1
      exact ⟨hspare.nil, hp.covered hspare⟩
    | widen repointed unwatch new =>
      obtain ⟨hspare, hc⟩ := Subsumer.force_remove_root_spares h.sound (u := unwatch) hrel he
      exact ⟨hspare, hp.widen hspare hc⟩
    | disjoint new =>
      have hspare := (Subsumer.force_remove_root_spares h.sound (u := []) List.not_mem_nil he).1
      exact ⟨hspare, hp.disjoint hspare.pending⟩

section
omit [LawfulEqOrd C]

theorem step_rebind_root (h : Kept s) {old new : H} (ha : s.Allowed (.rebind_root old new)) :
    ∃ s', s.step (.rebind_root old new) = .ok s' ∧ Stepped s s' (.rebind_root old new) := by
  obtain ⟨hrel, hnew⟩ := ha
  obtain ⟨hs, hk⟩ := Subsumer.rebind_root_sound h.sound _ _ hnew
  refine ⟨_, rfl, stepped_spared h hs hk (Subsumer.rebind_root_minted h.sound ..) ?_⟩
  intro outcome ho
  have hrel := hrel outcome ho
  have hp := h.planned outcome ho
  cases outcome with
  | covered root sub outside =>
    have hspare := (Subsumer.rebind_root_spares h.sound (u := [root]) hnew
      (fun hh => hrel (List.mem_singleton.mp hh)) ?_).1
    · exact ⟨hspare.nil, hp.covered hspare⟩
    · intro h' hh
      obtain ⟨p, k, -, hk, -⟩ := hp
      rw [List.mem_singleton.mp hh]
      exact ⟨k, hk⟩
  | widen repointed unwatch sub =>
    obtain ⟨hspare, hc⟩ := Subsumer.rebind_root_spares h.sound (u := unwatch) hnew hrel hp.2.2.2
    exact ⟨hspare, hp.widen hspare hc⟩
  | disjoint sub =>
    have hspare := (Subsumer.rebind_root_spares h.sound (u := []) hnew List.not_mem_nil
      (fun h' hh => absurd hh List.not_mem_nil)).1
    exact ⟨hspare, hp.disjoint hspare.pending⟩

end

section
omit [TransOrd C] [LawfulEqOrd C] [LawfulEqOrd H]

theorem step_set_retained_cover (h : Kept s) (handle : H) (cover : Option (List (List C)))
    (c : Call C V H) :
    Stepped s { s with engine := s.engine.set_retained_cover handle cover } c := by
  obtain ⟨hs, hk⟩ := Subsumer.set_retained_cover_sound h.sound handle cover
  refine stepped_spared h hs hk (Subsumer.set_retained_cover_minted h.sound ..) ?_
  intro outcome ho
  have hp := h.planned outcome ho
  have hspare := fun u => Subsumer.set_retained_cover_spares h.sound handle cover u
  cases outcome with
  | covered root sub outside => exact ⟨(hspare _).1, hp.covered (hspare _).1⟩
  | widen repointed unwatch sub =>
    exact ⟨(hspare _).1, hp.widen (hspare _).1 fun h' _ => by rw [(hspare []).2]⟩
  | disjoint sub => exact ⟨(hspare _).1, hp.disjoint (hspare []).1.pending⟩

theorem step_degrade_retained_cover (h : Kept s) (handle : H) :
    Stepped s { s with engine := s.engine.degrade_retained_cover handle }
      (.degrade_retained_cover handle) := by
  rcases Subsumer.degrade_retained_cover_cases h.sound handle with he | he
  · rw [he]
    exact ⟨h, Keeps.refl _, fun _ _ => rfl, Nat.le_refl _⟩
  · rw [he]
    exact step_set_retained_cover h handle (some []) _

end

/-- An allowed call goes through and keeps the invariant; only a plan that
    finds no id left does not. -/
theorem step_kept (h : Kept s) {c : Call C V H} (ha : s.Allowed c) :
    (∃ s', s.step c = .ok s' ∧ Stepped s s' c) ∨
    s.step c = .error .id_space_exhausted ∧
      2 ^ 64 ≤ s.engine.next_sub.as_u64 + [c].countP Call.is_plan := by
  cases c with
  | plan_watch key value interest globs => exact step_plan_watch h key value interest globs
  | fs_path_preserves_plan key => exact .inl (step_check h key)
  | commit_watch fs_root key globs => exact .inl (step_commit h ha)
  | abort_watch => exact .inl (step_abort h)
  | plan_unwatch sub => exact .inl (step_plan_unwatch h ha)
  | force_remove_root handle => exact .inl (step_force_remove_root h ha)
  | rebind_root old new => exact .inl (step_rebind_root h ha)
  | set_retained_cover handle cover =>
    exact .inl ⟨_, rfl, step_set_retained_cover h handle cover _⟩
  | degrade_retained_cover handle => exact .inl ⟨_, rfl, step_degrade_retained_cover h handle⟩

/-! ### Runs -/

/-- What a run does: the invariant stands, and what the minted subscriptions
    carry, and those that are neither live nor planned never come back. -/
structure Ran (s s' : Session C V H R T) : Prop where
  kept : Kept s'
  minted : s.engine.next_sub ≤ s'.engine.next_sub
  carried : ∀ x : Subscription, x.scope < s.engine.next_sub → s'.carried x = s.carried x
  lasting : ∀ x : Subscription, x.scope < s.engine.next_sub → s.engine.pending[x]? = none →
    s'.engine.pending[x]? = none ∧
    ∀ r' : SubRecord C H, s'.engine.subs[x]? = some r' →
      ∃ r, s.engine.subs[x]? = some r ∧ r.key = r'.key ∧ r.interest = r'.interest

section
omit [TransOrd C] [LawfulEqOrd C] [LawfulEqOrd H]

theorem Ran.refl (h : Kept s) : Ran s s :=
  ⟨h, Nat.le_refl _, fun _ _ => rfl, fun _ _ hp => ⟨hp, fun r' hr => ⟨r', hr, rfl, rfl⟩⟩⟩

theorem Stepped.ran {c : Call C V H} (h : Stepped s s' c) : Ran s s' := by
  refine ⟨h.kept, h.keeps.minted, h.carried, ?_⟩
  intro x hx hp
  have hnone : s'.engine.pending[x]? = none := by
    cases hp' : s'.engine.pending[x]? with
    | none => rfl
    | some p' =>
      rcases h.keeps.planned x p' hp' with ⟨p, hs⟩ | hs
      · rw [hp] at hs
        cases hs
      · exact absurd hx hs
  refine ⟨hnone, ?_⟩
  intro r' hr'
  rcases h.keeps.live x r' hr' with hr | ⟨p, hs⟩
  · exact hr
  · rw [hp] at hs
    cases hs

theorem Ran.trans {t : Session C V H R T} (h₁ : Ran s s') (h₂ : Ran s' t) : Ran s t := by
  refine ⟨h₂.kept, Nat.le_trans h₁.minted h₂.minted, ?_, ?_⟩
  · intro x hx
    rw [h₂.carried x (Nat.lt_of_lt_of_le hx h₁.minted), h₁.carried x hx]
  · intro x hx hp
    obtain ⟨hp', hl₁⟩ := h₁.lasting x hx hp
    obtain ⟨hp'', hl₂⟩ := h₂.lasting x (Nat.lt_of_lt_of_le hx h₁.minted) hp'
    refine ⟨hp'', ?_⟩
    intro r' hr'
    obtain ⟨r, hr, hk, hi⟩ := hl₂ r' hr'
    obtain ⟨r₀, hr₀, hk₀, hi₀⟩ := hl₁ r hr
    exact ⟨r₀, hr₀, hk₀.trans hk, hi₀.trans hi⟩

end

/-- A disciplined run goes through, or finds no id left. -/
theorem run_kept {calls : List (Call C V H)} (h : Kept s) (hd : s.Disciplined calls) :
    (∃ s', s.run calls = .ok s' ∧ Ran s s' ∧
      s'.engine.next_sub.as_u64 ≤ s.engine.next_sub.as_u64 + calls.countP Call.is_plan) ∨
    s.run calls = .error .id_space_exhausted ∧
      2 ^ 64 ≤ s.engine.next_sub.as_u64 + calls.countP Call.is_plan := by
  induction calls generalizing s with
  | nil => exact .inl ⟨s, rfl, .refl h, Nat.le_refl _⟩
  | cons c calls ih =>
    obtain ⟨ha, hd⟩ := hd
    have hcount : (c :: calls).countP Call.is_plan =
        [c].countP Call.is_plan + calls.countP Call.is_plan := by
      rw [← List.countP_append, List.singleton_append]
    unfold run
    rcases step_kept h ha with ⟨s', hs, hst⟩ | ⟨hs, hn⟩
    · rw [hs] at hd ⊢
      have hm := hst.minted
      rcases ih hst.kept hd with ⟨t, ht, hr, hc⟩ | ⟨ht, hc⟩
      · exact .inl ⟨t, ht, hst.ran.trans hr, by omega⟩
      · exact .inr ⟨ht, by omega⟩
    · right
      rw [hs]
      exact ⟨rfl, by omega⟩

section
omit [LawfulEqOrd C] [LawfulEqOrd H]

/-- A run is its parts, one after the other. -/
theorem run_append (calls₁ calls₂ : List (Call C V H)) :
    s.run (calls₁ ++ calls₂) =
      match s.run calls₁ with
      | .error e => .error e
      | .ok s => s.run calls₂ := by
  induction calls₁ generalizing s with
  | nil => rfl
  | cons c calls₁ ih =>
    simp only [List.cons_append, run]
    cases s.step c with
    | error e => rfl
    | ok s' => exact ih

theorem Disciplined.left {calls₁ calls₂ : List (Call C V H)}
    (h : s.Disciplined (calls₁ ++ calls₂)) : s.Disciplined calls₁ := by
  induction calls₁ generalizing s with
  | nil => trivial
  | cons c calls₁ ih =>
    refine ⟨h.1, ?_⟩
    have h₂ := h.2
    cases hs : s.step c with
    | error e => trivial
    | ok s' =>
      rw [hs] at h₂
      exact ih h₂

theorem Disciplined.right {calls₁ calls₂ : List (Call C V H)}
    (h : s.Disciplined (calls₁ ++ calls₂)) (hr : s.run calls₁ = .ok s') :
    s'.Disciplined calls₂ := by
  induction calls₁ generalizing s with
  | nil =>
    cases hr
    exact h
  | cons c calls₁ ih =>
    have h₂ := h.2
    unfold run at hr
    cases hs : s.step c with
    | error e =>
      rw [hs] at hr
      cases hr
    | ok t =>
      rw [hs] at hr h₂
      exact ih h₂ hr

end

end Session

/-! ### Reads -/

section
omit [TransOrd C] [LawfulEqOrd C] [DecidableEq H] [LawfulEqOrd H]

/-- The value of a live subscription is the one it was watched with. -/
theorem Sound.value {s : Subsumer C V H R T} {carried : Carried V} (h : Sound s carried)
    {sub : Subscription} {r : SubRecord C H} (hr : s.subs[sub]? = some r) :
    s.subscription_value sub = (carried sub).map Prod.fst := by
  obtain ⟨v, hv⟩ := h.attributed.carries sub r hr
  have hi := (h.minted.live sub r hr).1
  have hat : at_key s.covers r.key sub.scope = some v := by
    refine (h.attributed.values r.key sub.scope v).mpr ?_
    rw [← hi]
    exact ⟨r, hr, rfl, hv⟩
  rw [hv]
  unfold Subsumer.subscription_value Subsumer.subscription_key
  rw [hr]
  exact hat

end

/-- No read panics: an entry has a value, and the subscribers of a root have
    their keys. -/
structure Readable (s : Subsumer C V H R T) : Prop where
  value : ∀ k e, Trie.get s.covers k = some e → ∃ v, e.value = .ok v
  retained_cover_for : ∀ handle newcomer, ∃ cover, s.retained_cover_for handle newcomer = .ok cover

section
omit [TransOrd C] [LawfulEqOrd C] [DecidableEq H] [LawfulEqOrd H]

theorem Sound.readable {s : Subsumer C V H R T} {carried : Carried V} (h : Sound s carried) :
    Readable s := by
  refine ⟨fun k e he => CoverEntry.value_ok (h.attributed.filled k e he), ?_⟩
  intro handle newcomer
  unfold Subsumer.retained_cover_for
  cases hk : s.by_handle[handle]? with
  | none => exact ⟨_, rfl⟩
  | some k =>
    obtain ⟨record, hg, -⟩ := h.rooted.handle handle k hk
    obtain ⟨keys, hkeys, -⟩ := Subsumer.keys_of_ok (s := s) .subscriber_dead
      (cohort_of s.root_subs handle) fun x hx => by
        obtain ⟨r, hr, -⟩ := h.housed.live hx
        exact ⟨r, hr⟩
    unfold cohort_of at hkeys
    dsimp only
    rw [hg]
    dsimp only
    rw [hkeys]
    dsimp only
    split
    · exact ⟨_, rfl⟩
    · exact ⟨_, rfl⟩

end

/-! ### The engine over whole runs -/

/-- A subscription live at two points of a run has one key, one interest and
    one value. -/
def Constant (m s : Subsumer C V H R T) : Prop :=
  ∀ (sub : Subscription) (r r' : SubRecord C H), m.subs[sub]? = some r → s.subs[sub]? = some r' →
    r'.key = r.key ∧ r'.interest = r.interest ∧
      s.subscription_value sub = m.subscription_value sub

/-- In every run of calls in the order the owner keeps, the engine stays
    sound and readable and its subscriptions constant; no `expect` fails but
    the id counter's, and that one not before the ids are used up. -/
theorem engine_sound (instance_id : InstanceId) (before after : List (Call C V H))
    (h : (Session.start instance_id : Session C V H R T).Disciplined (before ++ after)) :
    (∃ m s, (Session.start instance_id : Session C V H R T).run before = .ok m ∧
      m.run after = .ok s ∧ Sound s.engine s.carried ∧ Readable s.engine ∧
      Constant m.engine s.engine) ∨
    ((Session.start instance_id : Session C V H R T).run (before ++ after) =
        .error .id_space_exhausted ∧
      2 ^ 64 - 1 ≤ (before ++ after).countP Call.is_plan) := by
  have hstart := Session.start_kept (C := C) (V := V) (H := H) (R := R) (T := T) instance_id
  have hone : (Session.start instance_id : Session C V H R T).engine.next_sub.as_u64 = 1 := rfl
  rcases Session.run_kept hstart h.left with ⟨m, hm, hrm, hcm⟩ | ⟨hm, hc⟩
  · have hd := h.right hm
    rcases Session.run_kept hrm.kept hd with ⟨s, hs, hrs, -⟩ | ⟨hs, hc⟩
    · left
      refine ⟨m, s, hm, hs, hrs.kept.sound, hrs.kept.sound.readable, ?_⟩
      intro sub r r' hr hr'
      have hlt := (hrm.kept.sound.minted.live sub r hr).2
      have hp : m.engine.pending[sub]? = none := by
        cases hp : m.engine.pending[sub]? with
        | none => rfl
        | some p =>
          have hn := (hrm.kept.sound.minted.planned sub p hp).2.2.1
          rw [hr] at hn
          cases hn
      obtain ⟨r₀, hr₀, hk, hi⟩ := (hrs.lasting sub hlt hp).2 r' hr'
      rw [hr] at hr₀
      cases hr₀
      refine ⟨hk.symm, hi.symm, ?_⟩
      rw [hrs.kept.sound.value hr', hrm.kept.sound.value hr, hrs.carried sub hlt]
    · right
      rw [Session.run_append, hm, List.countP_append]
      exact ⟨hs, by omega⟩
  · right
    rw [Session.run_append, hm, List.countP_append]
    exact ⟨rfl, by omega⟩

/-! ### A run over sorted maps -/

section Runs

/-- A session over sorted maps. -/
abbrev SortedSession : Type := Session Nat Nat Nat (Sorted (List Nat)) (Sorted ScopeId)

def first_watcher : InstanceId := ⟨1, Nat.one_pos⟩

def every_kind : Interest := ⟨true, true, true, true⟩

/-- A watch below, a wider one over it, and a third that is covered. -/
def opening : List (Call Nat Nat Nat) :=
  [.plan_watch [0, 1] 10 every_kind .new, .fs_path_preserves_plan [0, 1],
    .commit_watch 1 [0, 1] .new, .plan_watch [0] 20 every_kind .new, .fs_path_preserves_plan [0],
    .commit_watch 2 [0] .new]

def closing : List (Call Nat Nat Nat) :=
  [.plan_watch [0, 2] 30 every_kind .new, .rebind_root 7 2, .commit_watch 2 [] .new,
    .plan_unwatch ⟨first_watcher, Proto.ProtoId.min.succ⟩, .rebind_root 2 3,
    .degrade_retained_cover 3, .force_remove_root 3]

set_option maxRecDepth 8000 in
theorem engine_sound_opening :
    (Session.start first_watcher : SortedSession).Disciplined (opening ++ closing) ∧
    ∃ m s, (Session.start first_watcher : SortedSession).run opening = .ok m ∧
      m.run closing = .ok s ∧ Sound s.engine s.carried ∧ Readable s.engine ∧
      Constant m.engine s.engine := by
  have hd : (Session.start first_watcher : SortedSession).Disciplined (opening ++ closing) := by
    decide +kernel
  refine ⟨hd, ?_⟩
  rcases engine_sound first_watcher opening closing hd with h | ⟨-, h⟩
  · exact h
  · exact absurd h (by decide)

/-- Watches that are planned and given up, and one more. -/
def give_up : Nat → List (Call Nat Nat Nat)
  | 0 => [.plan_watch [] 0 every_kind .new]
  | n + 1 => .plan_watch [] 0 every_kind .new :: .abort_watch :: give_up n

/-- No root is live and no plan is out. -/
structure Quiet (s : SortedSession) : Prop where
  plan : s.plan = none
  index : ∀ k, Trie.get s.engine.index k = none

theorem Quiet.plan_watch {s : SortedSession} (h : Quiet s) :
    s.engine.plan_watch [] 0 every_kind .new = s.engine.reserve_as [] 0 every_kind .disjoint :=
  Subsumer.plan_watch_free (fun k _ => h.index k) (fun k _ => h.index k) 0 every_kind .new

/-- The last of the watches finds no id left. -/
theorem give_up_exhausts (n : Nat) {s : SortedSession} (h : Quiet s)
    (hn : s.engine.next_sub.as_u64 + n + 1 = 2 ^ 64) :
    s.Disciplined (give_up n) ∧ s.run (give_up n) = .error .id_space_exhausted := by
  have hallow : s.Allowed (.plan_watch [] 0 every_kind .new) := by
    refine ⟨?_, h.plan⟩
    intro outcome ho
    rw [h.plan] at ho
    cases ho
  induction n generalizing s with
  | zero =>
    have hs : s.step (.plan_watch [] 0 every_kind .new) = .error .id_space_exhausted := by
      simp only [Session.step, h.plan_watch, Subsumer.reserve_as, Subsumer.reserve,
        Subsumer.mint_subscription]
      rw [if_neg (by omega)]
    refine ⟨⟨hallow, ?_⟩, ?_⟩
    · rw [hs]
      trivial
    · simp only [give_up, Session.run, hs]
  | succ n ih =>
    have hs : ∃ s', s.step (.plan_watch [] 0 every_kind .new) = .ok s' ∧
        (∃ sub, s'.plan = some (.disjoint sub)) ∧ s'.engine.index = s.engine.index ∧
        s'.engine.next_sub = s.engine.next_sub.succ := by
      simp only [Session.step, h.plan_watch, Subsumer.reserve_as, Subsumer.reserve,
        Subsumer.mint_subscription]
      rw [if_pos (by omega)]
      exact ⟨_, rfl, ⟨_, rfl⟩, rfl, rfl⟩
    obtain ⟨s', hs, ⟨sub, hp⟩, hi, hnext⟩ := hs
    have hab : s'.step .abort_watch =
        .ok ⟨s'.engine.abort_watch (.disjoint sub), none, [], s'.carried⟩ := by
      simp only [Session.step, hp]
    have hq : Quiet ⟨s'.engine.abort_watch (.disjoint sub), none, [], s'.carried⟩ := by
      refine ⟨rfl, ?_⟩
      intro k
      show Trie.get s'.engine.index k = none
      rw [hi]
      exact h.index k
    have hn' : s'.engine.next_sub.as_u64 + n + 1 = 2 ^ 64 := by
      rw [hnext]
      show s.engine.next_sub.as_u64 + 1 + n + 1 = 2 ^ 64
      omega
    obtain ⟨hd, hr⟩ := ih hq hn' ⟨fun outcome ho => (by cases ho), rfl⟩
    refine ⟨⟨hallow, ?_⟩, ?_⟩
    · rw [hs]
      refine ⟨⟨?_, trivial⟩, ?_⟩
      · intro outcome ho
        have he : outcome = .disjoint sub := Option.some.inj (ho.symm.trans hp)
        rw [he]
        exact id
      · rw [hab]
        exact hd
    · simp only [give_up, Session.run, hs, hab]
      exact hr

/-- The watch after 2^64 - 2 others panics: the ids are used up. -/
theorem ids_run_out :
    (Session.start first_watcher : SortedSession).Disciplined (give_up (2 ^ 64 - 2)) ∧
    (Session.start first_watcher : SortedSession).run (give_up (2 ^ 64 - 2)) =
      .error .id_space_exhausted := by
  refine give_up_exhausts (2 ^ 64 - 2) ⟨rfl, fun k => Trie.get_empty k⟩ ?_
  show 1 + (2 ^ 64 - 2) + 1 = 2 ^ 64
  norm_num

end Runs

end Umbrella
