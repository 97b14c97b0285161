import Tributaries.Umbrella.Sessions

/-! # The ledger of a run

  What a caller can say of the subscriptions without looking into the
  engine: which watches were granted, with what, on which root, and which
  were unwatched or retired since.  It is read off the calls alone, and the
  side table of the engine says the same after every call.
-/

open Std Collections Region

namespace Umbrella

open Proto (ScopeId)

/-- What a watch was granted. -/
structure Grant (C V H : Type) where
  key : List C
  value : V
  interest : Interest
  root : H

structure Ledger (C V H : Type) where
  /-- What the plan that is out was asked for. -/
  asked : Option (List C × V × Interest)
  live : Subscription → Option (Grant C V H)

/-- The side-table record of a grant. -/
def Grant.side {C V H : Type} (g : Grant C V H) : SubRecord C H := ⟨g.root, g.key, g.interest⟩

namespace Ledger

variable {C V H : Type} [DecidableEq H]

def new : Ledger C V H := ⟨none, fun _ => none⟩

def grant (l : Ledger C V H) (sub : Subscription) (g : Grant C V H) : Ledger C V H :=
  { l with live := fun x => if sub = x then some g else l.live x }

/-- The grants on some roots move to another. -/
def reroot (l : Ledger C V H) (u : List H) (root : H) : Ledger C V H :=
  { l with live := fun x => (l.live x).map fun g => if g.root ∈ u then { g with root := root } else g }

/-- What a call that goes through says, under the plan that was answered. -/
def record (l : Ledger C V H) (plan : Option (WatchOutcome H)) : Call C V H → Ledger C V H
  | .plan_watch key value interest _ => { l with asked := some (key, value, interest) }
  | .commit_watch fs_root fs_root_key _ =>
    match plan, l.asked with
    | some (.covered _ sub _), some (key, value, interest) => l.grant sub ⟨key, value, interest, fs_root⟩
    | some (.disjoint sub), some (_, value, interest) =>
      l.grant sub ⟨fs_root_key, value, interest, fs_root⟩
    | some (.widen _ unwatch sub), some (_, value, interest) =>
      (l.reroot unwatch fs_root).grant sub ⟨fs_root_key, value, interest, fs_root⟩
    | _, _ => l
  | .plan_unwatch sub => { l with live := fun x => if sub = x then none else l.live x }
  | .force_remove_root handle =>
    { l with live := fun x => (l.live x).filter fun g => decide (g.root ≠ handle) }
  | .rebind_root old new => l.reroot [old] new
  | .fs_path_preserves_plan _ | .abort_watch | .set_retained_cover .. | .degrade_retained_cover _ => l

/-- The grants after a call that moves some of them to another root. -/
theorem side_reroot (l : Ledger C V H) (u : List H) (root : H) (x : Subscription) :
    ((l.reroot u root).live x).map Grant.side =
      ((l.live x).map Grant.side).map fun r => if r.root ∈ u then SubRecord.ride root r else r := by
  unfold reroot
  dsimp only
  cases l.live x with
  | none => rfl
  | some g =>
    simp only [Option.map_some, Option.some.injEq]
    by_cases hg : g.root ∈ u
    · rw [if_pos hg, if_pos (show (Grant.side g).root ∈ u from hg)]
      rfl
    · rw [if_neg hg, if_neg (show ¬ (Grant.side g).root ∈ u from hg)]

theorem reroot_same {l : Ledger C V H} {u : List H} {root : H} {x : Subscription} {g' : Grant C V H}
    (h : (l.reroot u root).live x = some g') :
    ∃ g, l.live x = some g ∧ g.value = g'.value ∧ g.interest = g'.interest := by
  obtain ⟨g, hg, rfl⟩ := Option.map_eq_some_iff.mp h
  refine ⟨g, hg, ?_⟩
  split
  · exact ⟨rfl, rfl⟩
  · exact ⟨rfl, rfl⟩

end Ledger

variable {C V H : Type} {R T : Type → Type}
variable [DecidableEq C] [Ord C] [TransOrd C] [LawfulEqOrd C]
  [DecidableEq H] [Ord H] [TransOrd H] [LawfulEqOrd H] [Radix C R] [Trie ScopeId T]

/-- The ledger after the calls of a run. -/
def Session.ledger (s : Session C V H R T) (l : Ledger C V H) : List (Call C V H) → Ledger C V H
  | [] => l
  | c :: calls =>
    match s.step c with
    | .error _ => l
    | .ok s' => s'.ledger (l.record s.plan c) calls

/-! ### The side table after each call -/

namespace Subsumer

variable {s s' : Subsumer C V H R T} {carried : Carried V} {sub x : Subscription} {fs_root : H}
  {p : PendingWatch C V}

section
omit [DecidableEq H] [TransOrd C] [LawfulEqOrd C] [LawfulEqOrd H]

theorem commit_covered_subs (hp : s.pending[sub]? = some p)
    (h : s.commit_covered sub fs_root = .ok s') :
    s'.subs = s.subs.insert sub ⟨fs_root, p.key, p.interest⟩ := by
  unfold commit_covered at h
  rw [take_pending_ok hp] at h
  dsimp only at h
  split at h
  · cases h
  · cases h
    rfl

theorem commit_disjoint_subs {key : List C} {globs : RootGlobs} (hp : s.pending[sub]? = some p)
    (h : s.commit_disjoint sub fs_root key globs = .ok s') :
    s'.subs = s.subs.insert sub ⟨fs_root, key, p.interest⟩ := by
  unfold commit_disjoint at h
  rw [take_pending_ok hp] at h
  cases h
  rfl

end

section
omit [TransOrd C] [LawfulEqOrd C] [LawfulEqOrd H]

/-- A widening commit moves the subscriptions of the subsumed roots. -/
theorem commit_widen_subs (hs : Sound s carried) {repointed : List Subscription} {u : List H}
    {key : List C} {globs : RootGlobs} (hpl : Planned s (.widen repointed u sub))
    (hp : s.pending[sub]? = some p)
    (h : s.commit_widen repointed u sub fs_root key globs = .ok s') :
    s'.subs[x]? = if sub = x then some ⟨fs_root, key, p.interest⟩
      else (s.subs[x]?).map fun r => if r.root ∈ u then SubRecord.ride fs_root r else r := by
  obtain ⟨-, -, hmem, -⟩ := hpl
  have hlive : ∀ y ∈ repointed, ∃ r, s.subs[y]? = some r := by
    intro y hy
    obtain ⟨h, -, hy⟩ := (hmem y).mp hy
    obtain ⟨r, hr, -⟩ := hs.housed.live hy
    exact ⟨r, hr⟩
  obtain ⟨subs, hok, hsubs⟩ := repoint_all_ok fs_root hlive
  unfold commit_widen at h
  rw [take_pending_ok hp] at h
  dsimp only at h
  rw [hok] at h
  cases h
  show (subs.insert sub ⟨fs_root, key, p.interest⟩)[x]? = _
  rw [get_insert, hsubs]
  congr 1
  cases hx : s.subs[x]? with
  | none => simp
  | some r =>
    -- it is re-pointed exactly when it rides a subsumed root
    have hin : x ∈ repointed ↔ r.root ∈ u := by
      rw [hmem]
      constructor
      · rintro ⟨h, hh, hm⟩
        obtain ⟨r', hr', rfl⟩ := hs.housed.live hm
        rw [hx] at hr'
        cases hr'
        exact hh
      · intro hu
        exact ⟨r.root, hu, (hs.housed.rides x r.root).mpr ⟨r, hx, rfl⟩⟩
    by_cases hu : r.root ∈ u
    · rw [if_pos (hin.mpr hu), Option.map_some, Option.map_some, if_pos hu]
    · rw [if_neg fun hm => hu (hin.mp hm), Option.map_some, if_neg hu]

end

section
omit [DecidableEq H] [TransOrd C] [LawfulEqOrd C] [LawfulEqOrd H]

theorem plan_unwatch_subs (hs : Sound s carried) {o : Option (UnwatchOutcome C H)}
    (h : s.plan_unwatch sub = .ok (o, s')) : s'.subs = s.subs.erase sub ∧ s'.pending = s.pending := by
  rcases plan_unwatch_cases hs sub with ⟨hn, h'⟩ | ⟨r, k, -, -, ⟨-, h'⟩ | ⟨-, shrink, -, h'⟩⟩
  · rw [h'] at h
    cases h
    refine ⟨ExtTreeMap.ext_getElem? fun x => ?_, rfl⟩
    rw [get_erase]
    split
    · rename_i hx
      rw [← hx, hn]
    · rfl
  · rw [h'] at h
    cases h
    exact ⟨rfl, rfl⟩
  · rw [h'] at h
    cases h
    exact ⟨rfl, rfl⟩

end

section
omit [LawfulEqOrd C] [LawfulEqOrd H]

theorem force_remove_root_subs (hs : Sound s carried) {h : H} {o : List Subscription}
    (hf : s.force_remove_root h = .ok (o, s')) :
    s'.subs[x]? = (s.subs[x]?).filter (fun r => decide (r.root ≠ h)) ∧ s'.pending = s.pending := by
  have hin : ∀ r, s.subs[x]? = some r → (x ∈ cohort_of s.root_subs h ↔ r.root = h) := by
    intro r hr
    rw [hs.housed.rides, hr]
    simp
  rcases force_remove_root_cases hs h with ⟨hn, h'⟩ | ⟨k, -, h'⟩
  · rw [h'] at hf
    cases hf
    refine ⟨?_, rfl⟩
    cases hx : s.subs[x]? with
    | none => rfl
    | some r =>
      have hne : r.root ≠ h := by
        intro he
        obtain ⟨k, hk⟩ := hs.root_live hx
        rw [he, hn] at hk
        cases hk
      simp [Option.filter, hne]
  · rw [h'] at hf
    cases hf
    refine ⟨?_, rfl⟩
    show ((cohort_of s.root_subs h).foldl (fun subs sub => subs.erase sub) s.subs)[x]? = _
    rw [get_erase_all]
    cases hx : s.subs[x]? with
    | none => simp
    | some r =>
      by_cases he : r.root = h
      · rw [if_pos ((hin r hx).mpr he)]
        simp [Option.filter, he]
      · rw [if_neg fun hm => he ((hin r hx).mp hm)]
        simp [Option.filter, he]

end

section
omit [TransOrd C] [LawfulEqOrd C] [LawfulEqOrd H]

theorem rebind_root_subs (hs : Sound s carried) (old new : H) :
    (s.rebind_root old new).subs[x]? =
        (s.subs[x]?).map (fun r => if r.root = old then SubRecord.ride new r else r) ∧
      (s.rebind_root old new).pending = s.pending := by
  rcases rebind_root_cases hs old new with ⟨hn, h⟩ | ⟨k, record, -, -, -, h⟩
  · rw [h]
    refine ⟨?_, rfl⟩
    cases hx : s.subs[x]? with
    | none => rfl
    | some r =>
      have hne : r.root ≠ old := by
        intro he
        obtain ⟨k, hk⟩ := hs.root_live hx
        rw [he, hn] at hk
        cases hk
      rw [Option.map_some, if_neg hne]
  · rw [h]
    refine ⟨?_, rfl⟩
    show ((cohort_of s.root_subs old).foldl
      (fun subs sub => subs.modify sub fun side => { side with root := new }) s.subs)[x]? = _
    rw [get_modify_all]
    cases hx : s.subs[x]? with
    | none => simp
    | some r =>
      have hin : x ∈ cohort_of s.root_subs old ↔ r.root = old := by
        rw [hs.housed.rides, hx]
        simp
      by_cases he : r.root = old
      · rw [if_pos (hin.mpr he), Option.map_some, Option.map_some, if_pos he]
      · rw [if_neg fun hm => he (hin.mp hm), Option.map_some, if_neg he]

end

section
omit [DecidableEq H] [TransOrd C] [LawfulEqOrd C] [LawfulEqOrd H]

theorem set_retained_cover_subs (hs : Sound s carried) (h : H) (cover : Option (List (List C))) :
    (s.set_retained_cover h cover).subs = s.subs ∧
      (s.set_retained_cover h cover).pending = s.pending := by
  rcases set_retained_cover_cases hs h cover with ⟨-, he⟩ | ⟨k, record, -, -, -, he⟩
  · rw [he]
    exact ⟨rfl, rfl⟩
  · rw [he]
    exact ⟨rfl, rfl⟩

end

end Subsumer

/-! ### The engine and the ledger -/

/-- The side table holds the grants, and the plan that is out what was asked. -/
structure Booked (s : Session C V H R T) (l : Ledger C V H) : Prop where
  subs : ∀ x : Subscription, s.engine.subs[x]? = (l.live x).map Grant.side
  carried : ∀ x g, l.live x = some g → s.carried x = some (g.value, g.interest)
  asked : ∀ outcome, s.plan = some outcome → ∃ p, s.engine.pending[outcome.sub]? = some p ∧
    l.asked = some (p.key, p.value, p.interest)

namespace Booked

variable {s s' : Session C V H R T} {l : Ledger C V H}

omit [TransOrd C] [LawfulEqOrd C] [DecidableEq H] [TransOrd H] [LawfulEqOrd H] [Trie ScopeId T] in
theorem start (instance_id : InstanceId) :
    Booked (Session.start instance_id : Session C V H R T) .new := by
  refine ⟨fun x => ?_, fun x g hg => ?_, fun outcome ho => ?_⟩
  · simp [Session.start, Subsumer.new, Ledger.new]
  · cases hg
  · cases ho

omit [TransOrd C] [LawfulEqOrd C] [LawfulEqOrd H] in
/-- A commit grants the planned watch, over what it makes of the other grants. -/
theorem granted (hk : s.Kept) (hb : Booked s l) {outcome : WatchOutcome H} {engine : Subsumer C V H R T}
    {l' : Ledger C V H} {key : List C}
    {root : H} {p : PendingWatch C V} (hp : s.engine.pending[outcome.sub]? = some p)
    (hl : ∀ x g', l'.live x = some g' → ∃ g, l.live x = some g ∧ g.value = g'.value ∧
      g.interest = g'.interest)
    (hsubs : ∀ x : Subscription, engine.subs[x]? =
      if outcome.sub = x then some ⟨root, key, p.interest⟩ else (l'.live x).map Grant.side) :
    Booked ⟨engine, none, [], s.carried⟩
      (l'.grant outcome.sub ⟨key, p.value, p.interest, root⟩) := by
  refine ⟨fun x => ?_, fun x g hg => ?_, fun outcome ho => by cases ho⟩
  · show engine.subs[x]? = (if outcome.sub = x then some _ else l'.live x).map Grant.side
    rw [hsubs]
    split
    · rfl
    · rfl
  · replace hg : (if outcome.sub = x then some _ else l'.live x) = some g := hg
    show s.carried x = _
    by_cases hx : outcome.sub = x
    · rw [if_pos hx] at hg
      cases hg
      rw [← hx]
      exact (hk.sound.minted.planned _ p hp).2.2.2
    · rw [if_neg hx] at hg
      obtain ⟨g₀, hg₀, hv, hi⟩ := hl x g hg
      rw [hb.carried x g₀ hg₀, hv, hi]

omit [DecidableEq C] [Ord C] [TransOrd C] [LawfulEqOrd C] [DecidableEq H] [TransOrd H]
  [LawfulEqOrd H] [Radix C R] [Trie ScopeId T] in
/-- A call that mints nothing and leaves the plans. -/
theorem recast (hb : Booked s l) {engine : Subsumer C V H R T} {l' : Ledger C V H}
    (hp : engine.pending = s.engine.pending) (hl' : l'.asked = l.asked)
    (hl : ∀ x g', l'.live x = some g' → ∃ g, l.live x = some g ∧ g.value = g'.value ∧
      g.interest = g'.interest)
    (hsubs : ∀ x : Subscription, engine.subs[x]? = (l'.live x).map Grant.side) :
    Booked { s with engine := engine } l' := by
  refine ⟨hsubs, fun x g hg => ?_, fun outcome ho => ?_⟩
  · obtain ⟨g₀, hg₀, hv, hi⟩ := hl x g hg
    show s.carried x = _
    rw [hb.carried x g₀ hg₀, hv, hi]
  · rw [hl']
    show ∃ p, engine.pending[outcome.sub]? = some p ∧ _
    rw [hp]
    exact hb.asked outcome ho

section
omit [LawfulEqOrd C] [LawfulEqOrd H]

/-- A watch that is granted a plan is asked for, and live nowhere yet. -/
theorem planned (hk : s.Kept) (hb : Booked s l) {key : List C} {value : V} {interest : Interest}
    {globs : RootGlobs} (hnone : s.plan = none)
    (hs : s.step (.plan_watch key value interest globs) = .ok s') :
    Booked s' (l.record s.plan (.plan_watch key value interest globs)) := by
  unfold Session.step at hs
  rcases Subsumer.plan_watch_sound hk.sound key value interest globs with
    ⟨refusal, he⟩ | ⟨outcome, engine, he, hacc⟩ | ⟨he, -⟩
  · simp only [he] at hs
    cases hs
    refine ⟨hb.subs, hb.carried, fun outcome ho => ?_⟩
    rw [show s.plan = some outcome from ho] at hnone
    cases hnone
  · simp only [he] at hs
    cases hs
    refine ⟨fun x => ?_, fun x g hg => ?_, fun o ho => ?_⟩
    · show engine.subs[x]? = _
      rw [hacc.subs]
      exact hb.subs x
    · -- a live subscription is older than the one just minted
      have hx : s.engine.subs[x]? = some g.side := by
        rw [hb.subs x, show l.live x = some g from hg]
        rfl
      refine (Function.update_of_ne ?_ ..).trans (hb.carried x g hg)
      rintro rfl
      exact hacc.fresh (hk.sound.minted.live _ _ hx).2
    · cases ho
      exact ⟨_, hacc.pending, rfl⟩
  · simp only [he] at hs
    cases hs

/-- A commit moves the side table as it moves the ledger. -/
theorem committed (hk : s.Kept) (hb : Booked s l) {fs_root : H} {key : List C} {globs : RootGlobs}
    {outcome : WatchOutcome H} (ho : s.plan = some outcome)
    (hs : s.step (.commit_watch fs_root key globs) = .ok s') :
    Booked s' (l.record s.plan (.commit_watch fs_root key globs)) := by
  obtain ⟨p, hp, hasked⟩ := hb.asked outcome ho
  have hplanned := hk.planned outcome ho
  unfold Session.step at hs
  simp only [ho] at hs
  cases he : s.engine.commit_watch outcome fs_root key globs with
  | error e =>
    rw [he] at hs
    cases hs
  | ok engine =>
    rw [he] at hs
    cases hs
    rw [ho]
    simp only [Ledger.record, hasked]
    cases outcome with
    | covered root sub outside =>
      refine hb.granted hk hp (fun x g' h => ⟨g', h, rfl, rfl⟩) fun x => ?_
      rw [Subsumer.commit_covered_subs hp he, get_insert, hb.subs x]
    | disjoint sub =>
      refine hb.granted hk hp (fun x g' h => ⟨g', h, rfl, rfl⟩) fun x => ?_
      rw [Subsumer.commit_disjoint_subs hp he, get_insert, hb.subs x]
    | widen repointed unwatch sub =>
      refine hb.granted hk hp (fun x g' => Ledger.reroot_same) fun x => ?_
      rw [Subsumer.commit_widen_subs hk.sound hplanned hp he, Ledger.side_reroot, hb.subs x]
      rfl

/-- One call moves the side table as it moves the ledger. -/
theorem step (hk : s.Kept) (hb : Booked s l) {c : Call C V H} (ha : s.Allowed c)
    (hs : s.step c = .ok s') : Booked s' (l.record s.plan c) := by
  have hsame : ∀ x g', l.live x = some g' → ∃ g, l.live x = some g ∧ g.value = g'.value ∧
      g.interest = g'.interest := fun x g' h => ⟨g', h, rfl, rfl⟩
  cases c with
  | plan_watch key value interest globs => exact hb.planned hk ha.2 hs
  | fs_path_preserves_plan key =>
    unfold Session.step at hs
    dsimp only at hs
    split at hs
    · cases hs
      exact hb
    · split at hs
      · cases hs
        exact ⟨hb.subs, hb.carried, hb.asked⟩
      · cases hs
        exact hb
  | commit_watch fs_root key globs =>
    obtain ⟨-, outcome, ho, -⟩ := ha
    exact hb.committed hk ho hs
  | abort_watch =>
    unfold Session.step at hs
    dsimp only at hs
    split at hs
    · cases hs
      exact hb
    · cases hs
      exact ⟨hb.subs, hb.carried, fun outcome ho => by cases ho⟩
  | plan_unwatch sub =>
    unfold Session.step at hs
    dsimp only at hs
    cases he : s.engine.plan_unwatch sub with
    | error e =>
      rw [he] at hs
      cases hs
    | ok r =>
      rw [he] at hs
      cases hs
      obtain ⟨hsubs, hp⟩ := Subsumer.plan_unwatch_subs hk.sound he
      refine hb.recast hp rfl (fun x g' hg => ?_) fun x => ?_
      · replace hg : (if sub = x then none else l.live x) = some g' := hg
        split at hg
        · cases hg
        · exact hsame x g' hg
      · show _ = (if sub = x then none else l.live x).map Grant.side
        rw [hsubs, get_erase, hb.subs x]
        split
        · rfl
        · rfl
  | force_remove_root handle =>
    unfold Session.step at hs
    dsimp only at hs
    cases he : s.engine.force_remove_root handle with
    | error e =>
      rw [he] at hs
      cases hs
    | ok r =>
      rw [he] at hs
      cases hs
      refine hb.recast (Subsumer.force_remove_root_subs (x := ⟨s.engine.instance_id, .min⟩)
        hk.sound he).2 rfl (fun x g' hg => ?_) fun x => ?_
      · exact hsame x g' (Option.filter_eq_some_iff.mp hg).1
      · rw [(Subsumer.force_remove_root_subs hk.sound he).1, hb.subs x]
        show _ = ((l.live x).filter _).map Grant.side
        cases hx : l.live x with
        | none => rfl
        | some g =>
          by_cases hg : g.root = handle
          · simp [Option.filter, Grant.side, hg]
          · simp [Option.filter, Grant.side, hg]
  | rebind_root old new =>
    cases hs
    refine hb.recast (Subsumer.rebind_root_subs (x := ⟨s.engine.instance_id, .min⟩) hk.sound old
      new).2 rfl (fun x g' => Ledger.reroot_same) fun x => ?_
    rw [(Subsumer.rebind_root_subs hk.sound old new).1, hb.subs x]
    show _ = ((l.reroot [old] new).live x).map Grant.side
    rw [Ledger.side_reroot]
    simp only [List.mem_singleton]
  | set_retained_cover handle cover =>
    cases hs
    obtain ⟨hsubs, hp⟩ := Subsumer.set_retained_cover_subs hk.sound handle cover
    exact hb.recast hp rfl hsame fun x => by rw [hsubs]; exact hb.subs x
  | degrade_retained_cover handle =>
    cases hs
    rcases Subsumer.degrade_retained_cover_cases hk.sound handle with he | he
    · rw [he]
      exact ⟨hb.subs, hb.carried, hb.asked⟩
    · rw [he]
      obtain ⟨hsubs, hp⟩ := Subsumer.set_retained_cover_subs hk.sound handle (some [])
      exact hb.recast hp rfl hsame fun x => by rw [hsubs]; exact hb.subs x

end

/-- The engine's side table is the ledger after every run. -/
theorem run (hk : s.Kept) (hb : Booked s l) {calls : List (Call C V H)}
    (hd : s.Disciplined calls) (hr : s.run calls = .ok s') : Booked s' (s.ledger l calls) := by
  induction calls generalizing s l with
  | nil =>
    cases hr
    exact hb
  | cons c calls ih =>
    obtain ⟨ha, hd⟩ := hd
    unfold Session.run at hr
    unfold Session.ledger
    cases hs : s.step c with
    | error e =>
      rw [hs] at hr
      cases hr
    | ok t =>
      rw [hs] at hr hd
      rcases Session.step_kept hk ha with ⟨t', ht, hst⟩ | ⟨ht, -⟩
      · rw [hs] at ht
        cases ht
        exact ih hst.kept (hb.step hk ha hs) hd hr
      · rw [hs] at ht
        cases ht

end Booked

end Umbrella
