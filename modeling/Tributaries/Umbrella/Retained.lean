import Tributaries.Umbrella.Proved
import Tributaries.Umbrella.Sessions

/-! # Retained covers claim no unproved ground

  A departure, a loss and a whole run of the owner keep what is recorded
  inside what was proved.  A watch planned as covered, and a prune that is
  asked for, can then be judged by the ground the sources have proved.
-/

open Std Collections Region

namespace Umbrella

open Proto (ScopeId)

variable {C V H : Type} {R T : Type → Type}
variable [DecidableEq C] [Ord C] [TransOrd C] [LawfulEqOrd C]
  [DecidableEq H] [Ord H] [TransOrd H] [LawfulEqOrd H] [Radix C R] [Trie ScopeId T]

variable {s s' : Subsumer C V H R T} {proved : Ground C H}

namespace Owner

/-! ### Departures -/

section
omit [TransOrd C] [LawfulEqOrd C] [DecidableEq H] [LawfulEqOrd H]

/-- A departure plants no root; the roots that stay keep their records. -/
theorem plan_unwatch_index {carried : Carried V} (hs : Sound s carried) {sub : Subscription}
    {o : Option (UnwatchOutcome C H)} (h : s.plan_unwatch sub = .ok (o, s')) (k : List C)
    (r : RootRecord C H) (hg : Trie.get s'.index k = some r) : Trie.get s.index k = some r := by
  rcases Subsumer.plan_unwatch_cases hs sub with
    ⟨-, he⟩ | ⟨r₀, k₀, -, -, ⟨-, he⟩ | ⟨-, shrink, -, he⟩⟩
  · rw [he] at h
    cases h
    exact hg
  · rw [he] at h
    cases h
    replace hg : Trie.get (Trie.remove s.index k₀) k = some r := hg
    rw [Trie.get_remove] at hg
    split at hg
    · cases hg
    · exact hg
  · rw [he] at h
    cases h
    exact hg

end

section
omit [TransOrd C] [LawfulEqOrd C]

theorem plan_unwatch_proved (h : Proved s proved) (sub : Subscription) :
    ∃ o s', s.plan_unwatch sub = .ok (o, s') ∧ Proved s' proved := by
  obtain ⟨carried, hs⟩ := h.sound
  obtain ⟨o, s', he, hs', -⟩ := Subsumer.plan_unwatch_sound hs sub
  exact ⟨o, s', he, h.fewer hs' (plan_unwatch_index hs he)⟩

end

section
omit [TransOrd C] [LawfulEqOrd C] [LawfulEqOrd H]

/-- A root whose prune went wrong, or that lost events, claims nothing. -/
theorem unproved_grounded (h : Proved s proved) (handle : H) :
    Proved (s.set_retained_cover handle (some [])) (Function.update proved handle ∅) := by
  refine set_retained_cover_proved h handle (some []) ∅ ?_
  intro k r _ _
  refine ⟨?_, ?_⟩
  · intro c hc
    cases hc
    exact formed_nil k
  · rw [coverage_narrowed rfl]
    rintro x ⟨c, hc, -⟩
    cases hc

end

theorem release_subscription_grounded (h : Proved s proved) (sub : Subscription)
    (offer : SourceOffer) : Grounded proved (release_subscription s sub offer) := by
  unfold release_subscription
  by_cases hi : sub.instance_id ≠ s.instance_id
  · rw [if_pos hi]
    exact ⟨s, [], rfl, h⟩
  · rw [if_neg hi]
    obtain ⟨o, s₁, he, hp⟩ := plan_unwatch_proved h sub
    rw [he]
    have hnone : Grounded proved (.ok (s₁, []) : Proving C V H R T) := ⟨s₁, [], rfl, hp⟩
    cases o with
    | none => exact hnone
    | some o =>
      cases o with
      | root_emptied fs_root => exact hnone
      | dropped shrink =>
        cases shrink with
        | none => exact hnone
        | some shrink =>
          obtain ⟨handle, retained⟩ := shrink
          obtain ⟨carried, hs⟩ := h.sound
          obtain ⟨k, r, hk, hg, hh, hasc, hsub, keys, hkeys, hleast⟩ :=
            Subsumer.plan_unwatch_shrink hs h.recorded he
          cases offer with
          | skipped => exact ⟨_, [.unproved handle], rfl, unproved_grounded hp handle⟩
          | unwound => exact ⟨_, [.unproved handle], rfl, unproved_grounded hp handle⟩
          | ran =>
            refine ⟨_, [.pruned handle retained], rfl, ?_⟩
            refine set_retained_cover_proved hp handle (some retained) _ ?_
            intro k' r' hk' hg'
            obtain ⟨carried', hs'⟩ := hp.sound
            -- the record is the one the shrink was computed from
            have hh' : r'.handle = handle := by
              obtain ⟨r'', hg'', hh''⟩ := hs'.rooted.handle handle k' hk'
              rw [hg'] at hg''
              cases hg''
              exact hh''
            have hold := plan_unwatch_index hs he k' r' hg'
            have hkk : k' = k := hs.rooted.unique hold hg (hh'.trans hh.symm)
            subst hkk
            rw [hold] at hg
            cases hg
            have hcov := h.covered k' r hold
            rw [hh] at hcov
            refine ⟨?_, ?_⟩
            · intro c hc
              cases hc
              refine ⟨hleast.prefix_free, hasc, ?_⟩
              intro c hc
              -- the survivors lie below the root they ride
              have hin : r.coverage ⊆ below k' := by
                have hkey := (hs.rooted.record k' r hold).1
                have := RootRecord.coverage_inside (r := r) (hkey ▸ h.recorded k' r hold)
                rw [hkey] at this
                exact this
              exact hin (hsub.subset (mem_ground_self hc))
            · rw [coverage_narrowed rfl]
              intro x hx
              exact ⟨hcov (hsub.subset hx), hx⟩

/-! ### Losses -/

section
omit [TransOrd C] [LawfulEqOrd C] [LawfulEqOrd H]

theorem degrade_grounded (h : Proved s proved) (handle : H) :
    Grounded proved (.ok (s.degrade_retained_cover handle,
      if narrowed s handle then [.unproved handle] else []) : Proving C V H R T) := by
  obtain ⟨carried, hs⟩ := h.sound
  refine ⟨_, _, rfl, ?_⟩
  have hcases := Subsumer.degrade_retained_cover_cases hs handle
  unfold narrowed Subsumer.entry
  cases hk : s.by_handle[handle]? with
  | none =>
    have he : s.degrade_retained_cover handle = s := by
      unfold Subsumer.degrade_retained_cover
      rw [hk]
    rw [he]
    exact h
  | some k =>
    obtain ⟨r, hg, hh⟩ := hs.rooted.handle handle k hk
    rw [Option.bind_some, hg, Option.bind_some]
    cases hc : r.retained_cover with
    | none =>
      -- a root that was never narrowed keeps its record
      have he : s.degrade_retained_cover handle = s := by
        unfold Subsumer.degrade_retained_cover
        rw [hk]
        dsimp only
        rw [hg]
        dsimp only
        rw [hc]
      rw [he]
      exact h
    | some cover =>
      show Proved _ (Function.update proved handle ∅)
      cases cover with
      | cons c cover =>
        have he : s.degrade_retained_cover handle = s.set_retained_cover handle (some []) := by
          unfold Subsumer.degrade_retained_cover Subsumer.set_retained_cover
          rw [hk]
          dsimp only
          rw [hg]
          dsimp only
          rw [hc]
        rw [he]
        exact unproved_grounded h handle
      | nil =>
        have he : s.degrade_retained_cover handle = s := by
          unfold Subsumer.degrade_retained_cover
          rw [hk]
          dsimp only
          rw [hg]
          dsimp only
          rw [hc]
        rw [he]
        refine h.reground fun k' r' hg' hh' => ?_
        rw [hs.rooted.unique hg' hg (hh'.trans hh.symm), hg] at hg'
        cases hg'
        rw [coverage_narrowed hc]
        rintro x ⟨c, hm, -⟩
        cases hm

end

theorem consume_source_event_grounded (h : Proved s proved) (handle : H)
    (is_rescan forgotten : Bool) :
    Grounded proved (consume_source_event s handle is_rescan forgotten) := by
  unfold consume_source_event
  by_cases hf : forgotten = true
  · rw [if_pos hf]
    obtain ⟨s₁, h₁, hp, -⟩ := retire_root_proved h handle
    rw [h₁]
    exact ⟨s₁, [], rfl, hp⟩
  · rw [if_neg hf]
    by_cases hr : is_rescan = true
    · rw [if_pos hr]
      exact degrade_grounded h handle
    · rw [if_neg hr]
      exact ⟨s, [], rfl, h⟩

/-! ### Runs -/

/-- One step keeps what is recorded inside what is proved, or finds no
    subscription id left. -/
theorem step_grounded (h : Proved s proved) (op : Op C V H)
    (hu : match op with
      | .watch a _ _ _ _ => Unique s a
      | _ => True) :
    Grounded proved (step s op) ∨ step s op = .error .id_space_exhausted := by
  cases op with
  | watch a key value interest globs => exact watch_grounded hu h key value interest globs
  | unwatch sub offer => exact .inl (release_subscription_grounded h sub offer)
  | source_event handle is_rescan forgotten =>
    exact .inl (consume_source_event_grounded h handle is_rescan forgotten)

section
omit [DecidableEq C] [Ord C] [TransOrd C] [LawfulEqOrd C] [Ord H] [TransOrd H] [LawfulEqOrd H]

theorem track_append (proved : Ground C H) (facts later : List (Fact C H)) :
    track proved (facts ++ later) = track (track proved facts) later := List.foldl_append ..

end

/-- A whole run keeps it. -/
theorem run_grounded (ops : List (Op C V H)) (h : Proved s proved) (hu : Honest s ops) :
    Grounded proved (run s ops) ∨ run s ops = .error .id_space_exhausted := by
  induction ops generalizing s proved with
  | nil => exact .inl ⟨s, [], rfl, h⟩
  | cons op ops ih =>
    obtain ⟨hop, hrest⟩ := hu
    unfold run
    rcases step_grounded h op hop with ⟨s₁, facts, he, hp⟩ | he
    · rw [he] at hrest ⊢
      rcases ih hp hrest with ⟨s₂, later, h₂, hp₂⟩ | h₂
      · left
        dsimp only
        rw [h₂]
        refine ⟨s₂, facts ++ later, rfl, ?_⟩
        rw [track_append]
        exact hp₂
      · right
        dsimp only
        rw [h₂]
    · right
      rw [he]

section
omit [TransOrd C] [LawfulEqOrd C] [DecidableEq H] [LawfulEqOrd H]

/-- A new engine records nothing. -/
theorem new_proved (instance_id : InstanceId) :
    Proved (Subsumer.new instance_id : Subsumer C V H R T) fun _ => ∅ := by
  have hnone : ∀ k, Trie.get (Subsumer.new instance_id : Subsumer C V H R T).index k = none :=
    fun k => Trie.get_empty k
  refine ⟨⟨fun _ => none, Subsumer.new_sound instance_id⟩, ?_, ?_⟩
  · intro k r hg
    rw [hnone] at hg
    cases hg
  · intro k r hg
    rw [hnone] at hg
    cases hg

end

end Owner

/-! ### What the records are worth -/

/-- What may be relied on beside the ground that was proved. -/
structure Retained (s : Subsumer C V H R T) (proved : Ground C H) : Prop where
  /-- A recorded cover is prefix-free, and proved below each of its prefixes. -/
  claims : ∀ k r cover, Trie.get s.index k = some r → r.retained_cover = some cover →
    PrefixFree cover ∧ ∀ c ∈ cover, below c ⊆ proved r.handle
  /-- A root that was never narrowed is proved whole. -/
  whole : ∀ k r, Trie.get s.index k = some r → r.retained_cover = none →
    below r.key ⊆ proved r.handle
  /-- A newcomer inside a record lies on proved ground. -/
  newcomers : ∀ (s' : Subsumer C V H R T) key value interest globs fs_root sub,
    s.plan_watch key value interest globs = .ok (.ok (.covered fs_root sub false), s') →
      below key ⊆ proved fs_root
  /-- A shrink is the least cover of the keys that survive on its root,
      strictly narrower than what is recorded, and no survivor lies outside
      what the source keeps once it is pruned. -/
  shrinks : ∀ (s' : Subsumer C V H R T) sub handle A,
    s.plan_unwatch sub = .ok (some (.dropped (some (handle, A))), s') →
      ∃ k r keys, Trie.get s.index k = some r ∧ r.handle = handle ∧ s'.RiderKeys handle keys ∧
        LeastCover keys A ∧ (∀ B, LeastCover keys B → ∀ key, key ∈ B ↔ key ∈ A) ∧
        ground A ⊂ r.coverage ∧ ∀ key ∈ keys, below key ⊆ proved handle ∩ ground A

theorem Proved.retained (h : Proved s proved) : Retained s proved := by
  obtain ⟨carried, hs⟩ := h.sound
  refine ⟨?_, ?_, ?_, ?_⟩
  · intro k r cover hg hc
    refine ⟨(h.recorded k r hg cover hc).prefix_free, ?_⟩
    intro c hm
    have hcov := h.covered k r hg
    rw [coverage_narrowed hc] at hcov
    exact (ground_closed (mem_ground_self hm)).trans hcov
  · intro k r hg hc
    have hcov := h.covered k r hg
    rw [coverage_full hc] at hcov
    exact hcov
  · intro s' key value interest globs fs_root sub hplan
    obtain ⟨k, r, hg, rfl, hin⟩ := Subsumer.plan_watch_inside hs hplan
    exact hin.trans (h.covered k r hg)
  · intro s' sub handle A hplan
    obtain ⟨k, r, -, hg, rfl, -, hsub, keys, hkeys, hleast⟩ :=
      Subsumer.plan_unwatch_shrink hs h.recorded hplan
    refine ⟨k, r, keys, hg, rfl, hkeys, hleast, ?_, hsub, ?_⟩
    · intro B hB key
      exact hB.unique hleast
    · intro key hm
      have hin := ground_closed (hleast.covers key hm)
      exact Set.subset_inter (hin.trans (hsub.subset.trans (h.covered k r hg))) hin

/-- In every run from a new engine, whatever the sources answer, what the
    engine records and reports is backed by what they have proved; the only
    panic is that of the subscription ids. -/
theorem retained_cover_proved (instance_id : InstanceId) (ops : List (Owner.Op C V H))
    (hu : Owner.Honest (Subsumer.new instance_id : Subsumer C V H R T) ops) :
    (∃ s facts, Owner.run (Subsumer.new instance_id : Subsumer C V H R T) ops = .ok (s, facts) ∧
      Retained s (track (fun _ => ∅) facts)) ∨
    Owner.run (Subsumer.new instance_id : Subsumer C V H R T) ops =
      .error .id_space_exhausted := by
  rcases Owner.run_grounded ops (Owner.new_proved instance_id) hu with ⟨s, facts, he, hp⟩ | he
  · exact .inl ⟨s, facts, he, hp.retained⟩
  · exact .inr he

/-- A source that arms at 7, and one that only grows. -/
def arms_at (key : List Nat) : Owner.Op Nat Nat Nat :=
  .watch ⟨fun _ => some key, true, fun _ => .refused, fun _ => .refused, .armed 7 key, fun _ => false,
    fun _ => .refused⟩ key 10 every_kind .new

def grows_to (key : List Nat) : Owner.Op Nat Nat Nat :=
  .watch ⟨fun _ => some key, true, fun _ => .refused, fun _ => .refused, .failed, fun _ => false,
    fun _ => .refused⟩ key 20 every_kind .new

/-- A root is armed, shared, pruned to its last rider and grown again. -/
def narrowing : List (Owner.Op Nat Nat Nat) :=
  [arms_at [0], grows_to [0, 1], .unwatch ⟨first_watcher, Proto.ProtoId.min⟩ .ran,
    grows_to [0, 2], .source_event 7 true false]

set_option maxRecDepth 8000 in
theorem retained_cover_narrowing :
    Owner.Honest (Subsumer.new first_watcher : Subsumer Nat Nat Nat (Sorted (List Nat))
      (Sorted Proto.ScopeId)) narrowing ∧
    ∃ s facts, Owner.run (Subsumer.new first_watcher : Subsumer Nat Nat Nat (Sorted (List Nat))
      (Sorted Proto.ScopeId)) narrowing = .ok (s, facts) ∧
        Retained s (track (fun _ => ∅) facts) := by
  have hgrow : ∀ (s : Subsumer Nat Nat Nat (Sorted (List Nat)) (Sorted Proto.ScopeId)) (key : List Nat),
      Owner.Unique s ⟨fun _ => some key, true, fun _ => .refused, fun _ => .refused, .failed,
        fun _ => false, fun _ => .refused⟩ := by
    intro s key
    constructor
    · intro handle key h
      cases h
    · intro only handle key h
      cases h
    · intro old new key h
      cases h
    · intro old old' new key key' h
      cases h
  have hu : Owner.Honest (Subsumer.new first_watcher : Subsumer Nat Nat Nat (Sorted (List Nat))
      (Sorted Proto.ScopeId)) narrowing := by
    refine ⟨⟨?_, ?_, ?_, ?_⟩, ?_⟩
    · intro handle key h
      rfl
    · intro only handle key h
      cases h
    · intro old new key h
      cases h
    · intro old old' new key key' h
      cases h
    · split
      · trivial
      · refine ⟨hgrow _ _, ?_⟩
        split
        · trivial
        · refine ⟨trivial, ?_⟩
          split
          · trivial
          · refine ⟨hgrow _ _, ?_⟩
            split
            · trivial
            · refine ⟨trivial, ?_⟩
              split
              · trivial
              · trivial
  refine ⟨hu, ?_⟩
  rcases retained_cover_proved first_watcher narrowing hu with h | h
  · exact h
  · have hok : (Owner.run (Subsumer.new first_watcher : Subsumer Nat Nat Nat (Sorted (List Nat))
        (Sorted Proto.ScopeId)) narrowing).toBool = true := by
      decide +kernel
    rw [h] at hok
    cases hok

end Umbrella
