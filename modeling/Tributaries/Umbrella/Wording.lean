import Tributaries.Umbrella.Words

/-! # The words of every run

  Over any run of the owner, each live subscription is served by a root
  with the words its watch carried, and a watch that is refused for its
  words leaves the engine as it was but for roots the source has forgotten.
-/

open Std Collections Region

namespace Umbrella

open Proto (ScopeId)

variable {C V H : Type} {R T : Type → Type}
variable [DecidableEq C] [Ord C] [TransOrd C] [LawfulEqOrd C]
  [DecidableEq H] [Ord H] [TransOrd H] [LawfulEqOrd H] [Radix C R] [Trie ScopeId T]

variable {s s' : Subsumer C V H R T} {proved : Ground C H} {carried : Carried V}

namespace Owner

/-! ### Refusals -/

/-- What a watch that is refused for its words leaves: its source was asked
    for nothing, no id was minted, and the engine is the one before it, less
    the roots met on the way that the source has forgotten. -/
structure Refused (a : Answers C H) (key : List C) (value : V) (interest : Interest)
    (globs : RootGlobs) (s s' : Subsumer C V H R T) : Prop where
  outcome : watch a key value interest globs s = .ok (s', [])
  calls : watch_calls a key value interest globs s = []
  minted : s'.next_sub = s.next_sub
  pending : s'.pending = s.pending
  conflict : ∃ refusal, s'.plan_watch key value interest globs = .ok (.error refusal, s') ∧
    (a.root_key refusal.root).isSome = true
  retired : ∃ dead : List H, (∀ h ∈ dead, a.root_key h = none ∧ s.by_handle[h]? ≠ none) ∧
    retire_disarmed_roots s dead = .ok s'
  unchanged : (∀ (h : H) (k : List C), s.by_handle[h]? = some k → a.root_key h ≠ none) → s' = s

section
omit [LawfulEqOrd C] [DecidableEq H] [LawfulEqOrd H]

/-- Once the covering root of a key is gone, nothing is left that could
    refuse it. -/
theorem disbanded_free (hs : Sound s carried) {fs_root : H} {key k : List C}
    (hk : s.by_handle[fs_root]? = some k) (hle : k <+: key) :
    (∀ p, p <+: key → Trie.get (s.disbanded fs_root k).index p = none) ∧
      ∀ p, Above key p → Trie.get (s.disbanded fs_root k).index p = none := by
  obtain ⟨r, hg, -⟩ := hs.rooted.handle fs_root k hk
  have hget : ∀ p, Trie.get (s.disbanded fs_root k).index p =
      if k = p then none else Trie.get s.index p := fun p => Trie.get_remove ..
  constructor
  · intro p hp
    rw [hget]
    by_cases he : k = p
    · exact if_pos he
    · rw [if_neg he]
      cases hgp : Trie.get s.index p with
      | none => rfl
      | some r' =>
        rcases Nat.le_total k.length p.length with hlen | hlen
        · exact absurd (hs.rooted.prefix_free k p r r' hg hgp
            (List.prefix_of_prefix_length_le hle hp hlen)) he
        · exact absurd (hs.rooted.prefix_free p k r' r hgp hg
            (List.prefix_of_prefix_length_le hp hle hlen)).symm he
  · intro p hp
    rw [hget]
    by_cases he : k = p
    · exact if_pos he
    · rw [if_neg he]
      cases hgp : Trie.get s.index p with
      | none => rfl
      | some r' => exact absurd (hs.rooted.prefix_free k p r r' hg hgp (hle.trans hp.1)) he

theorem retire_root_frame (hs : Sound s carried) {handle : H}
    (he : retire_root s handle = .ok s') : s'.next_sub = s.next_sub ∧ s'.pending = s.pending := by
  unfold retire_root at he
  rcases Subsumer.force_remove_root_cases hs handle with ⟨-, hc⟩ | ⟨k, -, hc⟩
  · rw [hc] at he
    cases he
    exact ⟨rfl, rfl⟩
  · rw [hc] at he
    cases he
    exact ⟨rfl, rfl⟩

/-- A watch apart from every root settles on a plan of its own. -/
theorem settle_plan_free (a : Answers C H) {key : List C} (value : V) (interest : Interest)
    (globs : RootGlobs) (fuel : Nat) (habove : ∀ p, p <+: key → Trie.get s.index p = none)
    (hbelow : ∀ p, Above key p → Trie.get s.index p = none) :
    settle_plan a key value interest globs (fuel + 1) s ≠ .ok (none, s') := by
  intro he
  unfold settle_plan at he
  rw [Subsumer.plan_watch_free habove hbelow] at he
  unfold Subsumer.reserve_as at he
  cases hr : s.reserve key value interest with
  | error e =>
    rw [hr] at he
    cases he
  | ok reserved =>
    rw [hr] at he
    cases he

end

/-- A plan that settles on nothing met a live root with other words, and
    retired the dead ones it met before. -/
theorem settle_plan_refused (a : Answers C H) (key : List C) (value : V) (interest : Interest)
    (globs : RootGlobs) (fuel : Nat) (h : Proved s proved) (hfuel : s.by_handle.size < fuel)
    (he : settle_plan a key value interest globs fuel s = .ok (none, s')) :
    s'.next_sub = s.next_sub ∧ s'.pending = s.pending ∧
      (∃ refusal, s'.plan_watch key value interest globs = .ok (.error refusal, s') ∧
        (a.root_key refusal.root).isSome = true) ∧
      ∃ dead : List H, (∀ h ∈ dead, a.root_key h = none ∧ s.by_handle[h]? ≠ none) ∧
        retire_disarmed_roots s dead = .ok s' := by
  induction fuel generalizing s with
  | zero => omega
  | succ fuel ih =>
    obtain ⟨carried, hs⟩ := h.sound
    unfold settle_plan at he
    rcases Subsumer.plan_watch_sound hs key value interest globs with
      ⟨conflict, hp⟩ | ⟨outcome, s₁, hp, ha⟩ | ⟨hp, -⟩
    · rw [hp] at he
      dsimp only at he
      by_cases hd : (a.root_key conflict.root).isNone = true
      · rw [if_pos hd] at he
        obtain ⟨k, hk⟩ := Subsumer.plan_watch_refused hs hp
        obtain ⟨s₁, h₁, hp₁, hf₁⟩ := retire_root_proved h conflict.root
        obtain ⟨s₂, h₂, -, hlt⟩ := retire_root_shrinks hs hk
        rw [h₁] at h₂
        cases h₂
        obtain ⟨hn₁, hpend₁⟩ := retire_root_frame hs h₁
        rw [h₁] at he
        obtain ⟨hn, hpend, hconf, dead, hdead, hret⟩ := ih hp₁ (by omega) he
        refine ⟨hn.trans hn₁, hpend.trans hpend₁, hconf, conflict.root :: dead, ?_, ?_⟩
        · intro h' hm
          rcases List.mem_cons.mp hm with rfl | hm
          · refine ⟨Option.isNone_iff_eq_none.mp hd, ?_⟩
            rw [hk]
            exact Option.some_ne_none k
          · exact ⟨(hdead h' hm).1, fun hnone => (hdead h' hm).2 (hf₁ h' hnone)⟩
        · unfold retire_disarmed_roots
          rw [h₁]
          exact hret
      · rw [if_neg hd] at he
        cases he
        refine ⟨rfl, rfl, ⟨conflict, hp, ?_⟩, [], ?_, rfl⟩
        · rw [Option.isNone_iff_eq_none] at hd
          exact Option.isSome_iff_ne_none.mpr hd
        · intro h hm
          cases hm
    · rw [hp] at he
      cases outcome with
      | widen repointed unwatch sub => cases he
      | disjoint sub => cases he
      | covered fs_root sub outside =>
        dsimp only at he
        by_cases hd : (a.root_key fs_root).isNone = true
        · -- without its covering root the watch is disjoint, and nobody refuses it
          rw [if_pos hd] at he
          obtain ⟨p, k, hpend, hk, hle⟩ := ha.planned
          have hkey : p.key = key := by
            have hpend' := ha.pending
            replace hpend' : s₁.pending[sub]? = some ⟨key, value, interest⟩ := hpend'
            rw [hpend'] at hpend
            cases hpend
            rfl
          rw [hkey] at hle
          have hs₁ := (Subsumer.abort_watch_sound ha.sound (.covered fs_root sub outside)).1
          obtain ⟨s₂, h₂, -, hlt⟩ := retire_root_shrinks hs₁ hk
          rw [h₂] at he
          have hsize : s₂.by_handle.size < s.by_handle.size := by
            rw [← ha.by_handle]
            exact hlt
          obtain ⟨fuel, rfl⟩ : ∃ n, fuel = n + 1 := ⟨fuel - 1, by omega⟩
          unfold retire_root at h₂
          rcases Subsumer.force_remove_root_cases hs₁ fs_root with ⟨hn, -⟩ | ⟨k', hk', hc⟩
          · replace hn : s₁.by_handle[fs_root]? = none := hn
            rw [hk] at hn
            cases hn
          · rw [hc] at h₂
            cases h₂
            have hkk : k' = k := Option.some.inj (hk'.symm.trans hk)
            obtain ⟨habove, hbelow⟩ := disbanded_free hs₁ hk' (hkk ▸ hle)
            exact absurd he (settle_plan_free a value interest globs fuel habove hbelow)
        · rw [if_neg hd] at he
          cases he
    · rw [hp] at he
      cases he

/-- A refused watch, as a whole. -/
theorem watch_refused (h : Proved s proved) {a : Answers C H} {key : List C} {value : V}
    {interest : Interest} {globs : RootGlobs}
    (he : settle_plan a key value interest globs (s.by_handle.size + 1) s = .ok (none, s')) :
    Refused a key value interest globs s s' := by
  obtain ⟨hn, hpend, hconf, dead, hdead, hret⟩ :=
    settle_plan_refused a key value interest globs _ h (Nat.lt_succ_self _) he
  refine ⟨?_, ?_, hn, hpend, hconf, ⟨dead, hdead, hret⟩, ?_⟩
  · unfold watch
    rw [he]
  · unfold watch_calls
    rw [he]
  · intro hlive
    cases dead with
    | nil =>
      cases hret
      rfl
    | cons first rest =>
      obtain ⟨hgone, hrec⟩ := hdead first List.mem_cons_self
      obtain ⟨k, hk⟩ := Option.ne_none_iff_exists'.mp hrec
      exact absurd hgone (hlive first k hk)

/-! ### Runs -/

/-- An engine, the words its subscriptions were watched with, and those its
    source was last asked to arm each handle with. -/
structure Tracked (C V H : Type) (R T : Type → Type) [Ord H] where
  engine : Subsumer C V H R T
  words : Subscription → RootGlobs
  armed : H → Option RootGlobs

namespace Tracked

def start (instance_id : InstanceId) : Tracked C V H R T :=
  ⟨.new instance_id, fun _ => .new, fun _ => none⟩

def step (t : Tracked C V H R T) (op : Op C V H) : Except Panic (Tracked C V H R T) :=
  match Owner.step t.engine op with
  | .error e => .error e
  | .ok (s, _) =>
    match op with
    | .watch a key value interest globs =>
      .ok ⟨s, worn t.engine s globs t.words,
        (watch_calls a key value interest globs t.engine).foldl configure t.armed⟩
    | _ => .ok ⟨s, t.words, t.armed⟩

def run (t : Tracked C V H R T) : List (Op C V H) → Except Panic (Tracked C V H R T)
  | [] => .ok t
  | op :: ops =>
    match t.step op with
    | .error e => .error e
    | .ok t => t.run ops

end Tracked

/-- Departures and losses change no words. -/
theorem release_subscription_worded {words : Subscription → RootGlobs}
    {armed : H → Option RootGlobs} (h : Proved s proved) (hw : Worded s words armed)
    {sub : Subscription} {offer : SourceOffer} {facts : List (Fact C H)}
    (he : release_subscription s sub offer = .ok (s', facts)) : Worded s' words armed := by
  obtain ⟨carried, hs⟩ := h.sound
  unfold release_subscription at he
  by_cases hi : sub.instance_id ≠ s.instance_id
  · rw [if_pos hi] at he
    cases he
    exact hw
  · rw [if_neg hi] at he
    obtain ⟨o, s₁, hplan, hp₁⟩ := plan_unwatch_proved h sub
    obtain ⟨carried₁, hs₁⟩ := hp₁.sound
    have hsubs : ∀ (x : Subscription) (r : SubRecord C H), s₁.subs[x]? = some r →
        s.subs[x]? = some r := by
      intro x r hx
      rcases Subsumer.plan_unwatch_cases hs sub with
        ⟨-, hc⟩ | ⟨r₀, k₀, -, -, ⟨-, hc⟩ | ⟨-, shrink, -, hc⟩⟩
      · rw [hc] at hplan
        cases hplan
        exact hx
      · rw [hc] at hplan
        cases hplan
        replace hx : (s.subs.erase sub)[x]? = some r := hx
        rw [get_erase] at hx
        split at hx
        · cases hx
        · exact hx
      · rw [hc] at hplan
        cases hplan
        replace hx : (s.subs.erase sub)[x]? = some r := hx
        rw [get_erase] at hx
        split at hx
        · cases hx
        · exact hx
    have hw₁ : Worded s₁ words armed := hw.fewer (plan_unwatch_index hs hplan) hsubs
    rw [hplan] at he
    split at he
    · next heq =>
      cases heq
    · next handle retained t heq =>
      cases heq
      cases offer with
      | ran =>
        cases he
        exact (set_retained_cover_worded hs₁ hw₁ handle (some retained)).1
      | skipped =>
        cases he
        exact (set_retained_cover_worded hs₁ hw₁ handle (some [])).1
      | unwound =>
        cases he
        exact (set_retained_cover_worded hs₁ hw₁ handle (some [])).1
    · next heq =>
      cases heq
      cases he
      exact hw₁

theorem consume_source_event_worded {words : Subscription → RootGlobs}
    {armed : H → Option RootGlobs} (h : Proved s proved) (hw : Worded s words armed) {handle : H}
    {is_rescan forgotten : Bool} {facts : List (Fact C H)}
    (he : consume_source_event s handle is_rescan forgotten = .ok (s', facts)) :
    Worded s' words armed := by
  obtain ⟨carried, hs⟩ := h.sound
  unfold consume_source_event at he
  by_cases hf : forgotten = true
  · rw [if_pos hf] at he
    obtain ⟨s₁, h₁, -, -, hw₁, -⟩ := retire_root_worded h hw handle
    rw [h₁] at he
    cases he
    exact hw₁
  · rw [if_neg hf] at he
    by_cases hr : is_rescan = true
    · rw [if_pos hr] at he
      cases he
      exact degrade_retained_cover_worded hs hw handle
    · rw [if_neg hr] at he
      cases he
      exact hw

/-- One step of the owner keeps the words. -/
theorem Tracked.step_worded {t : Tracked C V H R T} {op : Op C V H} (h : Proved t.engine proved)
    (hw : Worded t.engine t.words t.armed)
    (hu : match op with
      | .watch a _ _ _ _ => Unique t.engine a
      | _ => True) :
    (∃ t' facts, t.step op = .ok t' ∧ Owner.step t.engine op = .ok (t'.engine, facts) ∧
      Proved t'.engine (track proved facts) ∧ Worded t'.engine t'.words t'.armed) ∨
    t.step op = .error .id_space_exhausted := by
  rcases step_grounded h op hu with ⟨s₁, facts, he, hp⟩ | he
  · left
    unfold Tracked.step
    rw [he]
    cases op with
    | watch a key value interest globs => exact ⟨_, facts, rfl, rfl, hp, watch_worded hu h hw he⟩
    | unwatch sub offer => exact ⟨_, facts, rfl, rfl, hp, release_subscription_worded h hw he⟩
    | source_event handle is_rescan forgotten =>
      exact ⟨_, facts, rfl, rfl, hp, consume_source_event_worded h hw he⟩
  · right
    unfold Tracked.step
    rw [he]

/-- A whole run keeps them. -/
theorem Tracked.run_worded {t : Tracked C V H R T} (ops : List (Op C V H))
    (h : Proved t.engine proved) (hw : Worded t.engine t.words t.armed)
    (hu : Honest t.engine ops) :
    (∃ t' proved', t.run ops = .ok t' ∧ Proved t'.engine proved' ∧
      Worded t'.engine t'.words t'.armed) ∨ t.run ops = .error .id_space_exhausted := by
  induction ops generalizing t proved with
  | nil => exact .inl ⟨t, proved, rfl, h, hw⟩
  | cons op ops ih =>
    obtain ⟨hop, hrest⟩ := hu
    unfold Tracked.run
    rcases Tracked.step_worded h hw hop with ⟨t₁, facts, he, hs, hp, hw₁⟩ | he
    · rw [he]
      rw [hs] at hrest
      exact ih hp hw₁ hrest
    · right
      rw [he]

end Owner

/-! ### One root, one set of words -/

/-- What the words of a run come to. -/
structure OneSetOfWords (t : Owner.Tracked C V H R T) : Prop where
  served : ∀ (x : Subscription) (r : SubRecord C H), t.engine.subs[x]? = some r →
    ∃ k record, Trie.get t.engine.index k = some record ∧ record.handle = r.root ∧
      record.globs = t.words x ∧ ((t.words x).prune ≠ [] → r.key = record.key)
  armed : ∀ k record, Trie.get t.engine.index k = some record →
    t.armed record.handle = some record.globs
  refused : ∀ (a : Answers C H) key value interest globs (s' : Subsumer C V H R T),
    Owner.settle_plan a key value interest globs (t.engine.by_handle.size + 1) t.engine =
      .ok (none, s') → Owner.Refused a key value interest globs t.engine s'

/-- In every run of the owner each subscription is served with the words it
    was watched with, and a watch refused for its words changes nothing but
    that roots the source has forgotten are retired. -/
theorem one_set_of_words (instance_id : InstanceId) (ops : List (Owner.Op C V H))
    (hu : Owner.Honest (Subsumer.new instance_id : Subsumer C V H R T) ops) :
    (∃ t, (Owner.Tracked.start instance_id : Owner.Tracked C V H R T).run ops = .ok t ∧
      OneSetOfWords t) ∨
    (Owner.Tracked.start instance_id : Owner.Tracked C V H R T).run ops =
      .error .id_space_exhausted := by
  have hnew : Worded (Subsumer.new instance_id : Subsumer C V H R T) (fun _ => .new)
      fun _ => none := by
    constructor
    · intro x r k record hx
      simp [Subsumer.new] at hx
    · intro k record hg
      replace hg : Trie.get (Trie.empty : R (RootRecord C H)) k = some record := hg
      rw [Trie.get_empty] at hg
      cases hg
  rcases Owner.Tracked.run_worded (t := Owner.Tracked.start instance_id) ops
    (Owner.new_proved instance_id) hnew hu with ⟨t, proved, he, hp, hw⟩ | he
  · left
    refine ⟨t, he, ?_, hw.configured, fun a key value interest globs s' => Owner.watch_refused hp⟩
    intro x r hx
    obtain ⟨carried, hs⟩ := hp.sound
    obtain ⟨k, hk⟩ := hs.root_live hx
    obtain ⟨record, hg, hh⟩ := hs.rooted.handle r.root k hk
    obtain ⟨hwords, hkey⟩ := hw.fitted x r k record hx hg hh
    refine ⟨k, record, hg, hh, hwords, ?_⟩
    intro hprune
    rw [(hs.rooted.record k record hg).1]
    exact hkey (hwords ▸ hprune)
  · exact .inr he

/-! ### Two roots with words of their own -/

section Runs

def no_logs : RootGlobs := ⟨["*.log"], none⟩

/-- A source that arms one root at a handle, with words that prune. -/
def arms_pruned (handle : Nat) (key : List Nat) : Owner.Op Nat Nat Nat :=
  .watch ⟨fun _ => some key, true, fun _ => .refused, fun _ => .refused, .armed handle key,
    fun _ => false, fun _ => .refused⟩ key 10 every_kind no_logs

def two_roots : List (Owner.Op Nat Nat Nat) := [arms_pruned 1 [0, 1], arms_pruned 2 [0, 2]]

/-- Only the second root is still known to the source. -/
def first_forgotten : Answers Nat Nat :=
  ⟨fun h => if h = 2 then some [0, 2] else none, true, fun _ => .refused, fun _ => .refused, .failed,
    fun _ => false, fun _ => .refused⟩

abbrev SortedTracked : Type :=
  Owner.Tracked Nat Nat Nat (Sorted (List Nat)) (Sorted ScopeId)

theorem arms_pruned_unique {s : Subsumer Nat Nat Nat (Sorted (List Nat)) (Sorted ScopeId)}
    {handle : Nat} {key : List Nat} (hn : s.by_handle[handle]? = none) :
    Owner.Unique s ⟨fun _ => some key, true, fun _ => .refused, fun _ => .refused,
      .armed handle key, fun _ => false, fun _ => .refused⟩ := by
  constructor
  · intro h k ha
    cases ha
    exact hn
  · intro only h k ha
    cases ha
  · intro old new k ha
    cases ha
  · intro old old' new k k' ha
    cases ha

set_option maxRecDepth 8000 in
theorem two_roots_honest :
    Owner.Honest (Subsumer.new first_watcher :
      Subsumer Nat Nat Nat (Sorted (List Nat)) (Sorted ScopeId)) two_roots := by
  have hsecond : (match Owner.step (Subsumer.new first_watcher :
      Subsumer Nat Nat Nat (Sorted (List Nat)) (Sorted ScopeId)) (arms_pruned 1 [0, 1]) with
      | .error _ => none
      | .ok (s, _) => s.by_handle[2]?) = none := by
    decide +kernel
  refine ⟨arms_pruned_unique rfl, ?_⟩
  split
  · trivial
  · next s facts heq =>
    rw [heq] at hsecond
    refine ⟨arms_pruned_unique hsecond, ?_⟩
    split
    · trivial
    · trivial

set_option maxRecDepth 8000 in
theorem one_set_of_words_two_roots :
    Owner.Honest (Subsumer.new first_watcher :
      Subsumer Nat Nat Nat (Sorted (List Nat)) (Sorted ScopeId)) two_roots ∧
    ∃ t, (Owner.Tracked.start first_watcher : SortedTracked).run two_roots = .ok t ∧
      OneSetOfWords t := by
  refine ⟨two_roots_honest, ?_⟩
  rcases one_set_of_words first_watcher two_roots two_roots_honest with h | h
  · exact h
  · have hok : ((Owner.Tracked.start first_watcher : SortedTracked).run two_roots).toBool = true := by
      decide +kernel
    rw [h] at hok
    cases hok

/-- How a watch would be planned. -/
def planned (s : Subsumer Nat Nat Nat (Sorted (List Nat)) (Sorted ScopeId)) (key : List Nat) :
    Option (WatchOutcome Nat) :=
  match s.plan_watch key 0 every_kind no_logs with
  | .ok (.ok outcome, _) => some outcome
  | _ => none

/-- How a watch of the first root's key is planned before and after one over
    both roots, without their words, was refused. -/
def around_refusal : Option (Option (WatchOutcome Nat) × Option (WatchOutcome Nat)) :=
  match (Owner.Tracked.start first_watcher : SortedTracked).run two_roots with
  | .error _ => none
  | .ok t =>
    match Owner.settle_plan first_forgotten [0] 20 every_kind .new (t.engine.by_handle.size + 1)
      t.engine with
    | .ok (none, s) => some (planned t.engine [0, 1], planned s [0, 1])
    | _ => none

set_option maxRecDepth 8000 in
/-- A refused watch retired the root its source had forgotten: the key that
    root covered is planned anew. -/
theorem refusal_retires : around_refusal =
    some (some (.covered 1 ⟨first_watcher, Proto.ProtoId.min.succ.succ⟩ false),
      some (.disjoint ⟨first_watcher, Proto.ProtoId.min.succ.succ⟩)) := by
  decide +kernel

end Runs

end Umbrella
