import Tributaries.Umbrella.Retained

/-! # One root, one set of words

  A root is armed with the glob words of the watch that asked for it, and
  every subscription it serves was watched with the same words.  The calls
  a watch makes to its source are listed beside it, so that the words a
  root was last armed with can be compared with the recorded ones.
-/

open Std Collections Region

namespace Umbrella

open Proto (ScopeId)

/-! ### The calls of a watch -/

/-- A call that arms, releases or retargets a root; an arm with the handle it
    answered, if any. -/
inductive SourceCall (C H : Type) where
  | arm (key : List C) (words : RootGlobs) (handle : Option H)
  | disarm (handle : H)
  | replace (handle : H) (key : List C)
deriving DecidableEq

def ArmStep.handle {C H : Type} : ArmStep C H → Option H
  | .armed handle _ => some handle
  | _ => none

def RearmStep.handle {C H : Type} : RearmStep C H → Option H
  | .armed handle _ => some handle
  | _ => none

variable {C V H : Type} {R T : Type → Type}
variable [DecidableEq C] [Ord C] [TransOrd C] [LawfulEqOrd C]
  [DecidableEq H] [Ord H] [TransOrd H] [LawfulEqOrd H] [Radix C R] [Trie ScopeId T]

namespace Owner

section Calls

variable (a : Answers C H) (key : List C) (value : V) (interest : Interest) (globs : RootGlobs)

def arm_call : SourceCall C H := .arm key globs a.arm.handle

def disjoint_calls (s : Subsumer C V H R T) : List (SourceCall C H) :=
  match a.arm with
  | .armed handle fs_key =>
    if s.fs_path_preserves_plan fs_key [] then [arm_call a key globs]
    else [arm_call a key globs, .disarm handle]
  | .failed | .stopped => [arm_call a key globs]

/-- A released root is re-armed with its own words. -/
def rearm_call (s : Subsumer C V H R T) (old : H) (root_key : List C) : SourceCall C H :=
  .arm root_key ((s.root_globs old).getD .new) (a.rearm old).handle

def restore_calls : List H → Subsumer C V H R T → List (SourceCall C H)
  | [], _ => []
  | old :: rest, s =>
    let retire_one : List (SourceCall C H) :=
      match retire_root s old with
      | .error _ => []
      | .ok s => restore_calls rest s
    if a.probe old then []
    else
      match s.root_view old with
      | none => restore_calls rest s
      | some (root_key, _) =>
        rearm_call a s old root_key ::
          match a.rearm old with
          | .armed new_handle fs_key =>
            if fs_key = root_key then restore_calls rest (s.rebind_root old new_handle)
            else .disarm new_handle :: retire_one
          | .refused => retire_one
          | .terminal => []

def release_and_arm_calls (s : Subsumer C V H R T) (unwatch : List H) : List (SourceCall C H) :=
  unwatch.map .disarm ++ arm_call a key globs ::
    match a.arm with
    | .stopped => []
    | .failed => restore_calls a unwatch s
    | .armed handle fs_key =>
      if s.fs_path_preserves_plan fs_key unwatch then []
      else .disarm handle :: restore_calls a unwatch s

def replace_calls (s : Subsumer C V H R T) (unwatch : List H) (only : H) (only_key : List C) :
    List (SourceCall C H) :=
  .replace only key ::
    match a.replace only with
    | .replaced handle fs_key =>
      if s.fs_path_preserves_plan fs_key unwatch then []
      else
        .replace handle only_key ::
          match a.rollback handle with
          | .stopped => []
          | .replaced _ back_key => if back_key = only_key then [] else [.disarm handle]
          | .refused | .failed => [.disarm handle]
    | .refused | .stopped => []
    | .failed => release_and_arm_calls a key globs s unwatch

def widen_calls (s : Subsumer C V H R T) (unwatch : List H) : List (SourceCall C H) :=
  match unwatch with
  | [only] =>
    match a.root_key only with
    | some only_key => replace_calls a key globs s [only] only only_key
    | none => release_and_arm_calls a key globs s [only]
  | _ => release_and_arm_calls a key globs s unwatch

/-- The calls `watch` makes to its source, in their order. -/
def watch_calls (s : Subsumer C V H R T) : List (SourceCall C H) :=
  match settle_plan a key value interest globs (s.by_handle.size + 1) s with
  | .ok (some outcome, s) =>
    match outcome with
    | .covered .. => []
    | .disjoint _ => disjoint_calls a key globs s
    | .widen _ unwatch _ => widen_calls a key globs s unwatch
  | _ => []

end Calls

/-- The words each handle was last armed with. -/
def configure (armed : H → Option RootGlobs) : SourceCall C H → H → Option RootGlobs
  | .arm _ words (some handle) => Function.update armed handle (some words)
  | _ => armed

end Owner

/-! ### What is kept -/

/-- A live subscription was watched with the words of its root, and at its
    root's key if the words prune; and these are the words the root was
    armed with. -/
structure Worded (s : Subsumer C V H R T) (words : Subscription → RootGlobs)
    (armed : H → Option RootGlobs) : Prop where
  fitted : ∀ (x : Subscription) (r : SubRecord C H) k record, s.subs[x]? = some r →
    Trie.get s.index k = some record → record.handle = r.root →
      record.globs = words x ∧ (record.globs.prune ≠ [] → r.key = k)
  configured : ∀ k record, Trie.get s.index k = some record →
    armed record.handle = some record.globs

variable {s s' : Subsumer C V H R T} {proved : Ground C H} {carried : Carried V}
  {words words' : Subscription → RootGlobs} {armed armed' : H → Option RootGlobs}

section
omit [TransOrd C] [LawfulEqOrd C] [DecidableEq H] [TransOrd H] [LawfulEqOrd H] [Trie ScopeId T]

/-- Roots and subscriptions go, and none comes. -/
theorem Worded.fewer (h : Worded s words armed)
    (hi : ∀ k record, Trie.get s'.index k = some record → Trie.get s.index k = some record)
    (hs : ∀ (x : Subscription) (r : SubRecord C H), s'.subs[x]? = some r → s.subs[x]? = some r) :
    Worded s' words armed :=
  ⟨fun x r k record hx hg => h.fitted x r k record (hs x r hx) (hi k record hg),
    fun k record hg => h.configured k record (hi k record hg)⟩

end

section
omit [TransOrd C] [LawfulEqOrd C] [LawfulEqOrd H]

/-- A handle that names no root may be armed with any words. -/
theorem Worded.arm (h : Worded s words armed) (hs : Sound s carried) {handle : H}
    (hn : s.by_handle[handle]? = none) (w : Option RootGlobs) :
    Worded s words (Function.update armed handle w) := by
  refine ⟨h.fitted, ?_⟩
  intro k record hg
  have hne : record.handle ≠ handle := by
    intro he
    have hk := (hs.rooted.record k record hg).2
    rw [he, hn] at hk
    cases hk
  rw [Function.update_of_ne hne]
  exact h.configured k record hg

end

section
omit [TransOrd C] [LawfulEqOrd C] [DecidableEq H] [LawfulEqOrd H]

/-- One root is written, and every subscription on it was watched with its
    words; the others stay where they are. -/
theorem Worded.write (h : Worded s words armed) (hs' : Sound s' carried) {k : List C}
    (record : RootRecord C H) (hg : Trie.get s'.index k = some record)
    (hi : ∀ k' r', k' ≠ k → Trie.get s'.index k' = some r' → Trie.get s.index k' = some r')
    (hsubs : ∀ (x : Subscription) (r' : SubRecord C H), s'.subs[x]? = some r' →
      (r'.root ≠ record.handle ∧ s.subs[x]? = some r' ∧ words' x = words x) ∨
      (r'.root = record.handle ∧ words' x = record.globs ∧ (record.globs.prune ≠ [] → r'.key = k)))
    (ha : armed' record.handle = some record.globs)
    (hne : ∀ handle, handle ≠ record.handle → armed' handle = armed handle) :
    Worded s' words' armed' := by
  constructor
  · intro x r' k' r₁ hx hg' hh
    rcases hsubs x r' hx with ⟨hroot, hold, hw⟩ | ⟨hroot, hw, hkey⟩
    · have hkk : k' ≠ k := by
        intro he
        subst he
        rw [hg] at hg'
        cases hg'
        exact hroot hh.symm
      rw [hw]
      exact h.fitted x r' k' r₁ hold (hi k' r₁ hkk hg') hh
    · have hkk : k' = k := hs'.rooted.unique hg' hg (hh.trans hroot)
      subst hkk
      rw [hg] at hg'
      cases hg'
      exact ⟨hw.symm, hkey⟩
  · intro k' r₁ hg'
    by_cases hkk : k' = k
    · subst hkk
      rw [hg] at hg'
      cases hg'
      exact ha
    · have hh : r₁.handle ≠ record.handle := fun he => hkk (hs'.rooted.unique hg' hg he)
      rw [hne r₁.handle hh]
      exact h.configured k' r₁ (hi k' r₁ hkk hg')

end

/-- No subscription comes alive. -/
def FewerSubs (s s' : Subsumer C V H R T) : Prop :=
  ∀ x : Subscription, s.subs[x]? = none → s'.subs[x]? = none

/-! ### Plans -/

/-- The words of a plan are those of every root it would share. -/
def Suits (s : Subsumer C V H R T) (globs : RootGlobs) : WatchOutcome H → Prop
  | .covered fs_root sub _ => ∀ (p : PendingWatch C V) k record, s.pending[sub]? = some p →
      Trie.get s.index k = some record → record.handle = fs_root →
        record.globs = globs ∧ (globs.prune ≠ [] → p.key = k)
  | .widen _ unwatch _ => globs.prune = [] ∧ ∀ k record, Trie.get s.index k = some record →
      record.handle ∈ unwatch → record.globs = globs
  | .disjoint _ => True

namespace Subsumer

section
omit [DecidableEq C] [Ord C] [TransOrd C] [LawfulEqOrd C] [DecidableEq H] [LawfulEqOrd H] [Radix C R] [Trie ScopeId T]

theorem plan_widen_words {value : V} {globs : RootGlobs} {records : List (RootRecord C H)}
    {acc out : List Subscription × List H} (h : s.plan_widen value globs records acc = .ok out) :
    ∀ r ∈ records, r.globs = globs ∧ globs.prune = [] := by
  induction records generalizing acc with
  | nil =>
    intro r hr
    cases hr
  | cons record rest ih =>
    unfold plan_widen at h
    split at h
    · cases h
    · next hsame =>
      split at h
      · cases h
      · next hprune =>
        intro r hr
        rcases List.mem_cons.mp hr with rfl | hr
        · exact ⟨not_not.mp hsame, not_not.mp fun hp => hprune (.inl hp)⟩
        · exact ih h r hr

end

section
omit [TransOrd C] [LawfulEqOrd C] [DecidableEq H] [LawfulEqOrd H]

theorem plan_covered_words (hs : Sound s carried) {key : List C} {value : V} {globs : RootGlobs}
    {fs_root : H} {outside : Bool}
    (h : s.plan_covered key value globs = .ok (some (fs_root, outside))) {k : List C}
    {record : RootRecord C H} (hg : Trie.get s.index k = some record)
    (hh : record.handle = fs_root) :
    record.globs = globs ∧ (globs.prune ≠ [] → key = k) := by
  unfold plan_covered at h
  cases ha : Radix.get_ancestor s.index key with
  | none =>
    rw [ha] at h
    cases h
  | some found =>
    rw [ha] at h
    obtain ⟨p, hp, hget, -⟩ := Radix.get_ancestor_some s.index key found ha
    dsimp only at h
    split at h
    · cases h
    · next hsame =>
      split at h
      · cases h
      · next hanchor =>
        cases h
        have hkp : k = p := hs.rooted.unique hg hget hh
        subst hkp
        rw [hg] at hget
        cases hget
        refine ⟨not_not.mp hsame, ?_⟩
        intro hprune
        have hlen : record.key.length = key.length := not_not.mp fun hne => hanchor ⟨hne, hprune⟩
        rw [(hs.rooted.record k record hg).1] at hlen
        exact (hp.eq_of_length hlen).symm

end

section
omit [DecidableEq C] [Ord C] [TransOrd C] [LawfulEqOrd C] [DecidableEq H] [TransOrd H] [LawfulEqOrd H] [Radix C R] [Trie ScopeId T]

/-- Reserving touches neither the roots nor the live subscriptions. -/
theorem reserve_as_frame {key : List C} {value : V} {interest : Interest}
    {outcome : Subscription → WatchOutcome H} {o : WatchOutcome H}
    (h : s.reserve_as key value interest outcome = .ok (.ok o, s')) :
    s'.subs = s.subs ∧ s'.index = s.index ∧ ∃ sub, o = outcome sub ∧
      s'.pending = s.pending.insert sub ⟨key, value, interest⟩ := by
  unfold reserve_as reserve mint_subscription at h
  split at h
  · cases h
  · next sub t he =>
    split at he
    · cases he
    · next sub' t' hm =>
      split at hm
      · cases hm
        cases he
        cases h
        exact ⟨rfl, rfl, _, rfl, rfl⟩
      · cases hm

end

section
omit [TransOrd C] [LawfulEqOrd C] [DecidableEq H] [LawfulEqOrd H]

/-- An accepted plan suits its words, and only reserves. -/
theorem plan_watch_suits (hs : Sound s carried) {key : List C} {value : V} {interest : Interest}
    {globs : RootGlobs} {o : WatchOutcome H}
    (h : s.plan_watch key value interest globs = .ok (.ok o, s')) :
    Suits s' globs o ∧ s'.subs = s.subs ∧ s'.index = s.index := by
  unfold plan_watch at h
  cases hc : s.plan_covered key value globs with
  | error refusal =>
    rw [hc] at h
    cases h
  | ok covering =>
    rw [hc] at h
    cases covering with
    | some c =>
      obtain ⟨fs_root, outside⟩ := c
      obtain ⟨hsub, hindex, sub, rfl, hpend⟩ := reserve_as_frame h
      refine ⟨?_, hsub, hindex⟩
      intro p k record hp hg hh
      rw [hpend, get_insert, if_pos rfl] at hp
      cases hp
      rw [hindex] at hg
      exact plan_covered_words hs hc hg hh
    | none =>
      dsimp only at h
      cases hw : s.plan_widen value globs (Radix.descendants s.index key) ([], []) with
      | error refusal =>
        rw [hw] at h
        cases h
      | ok lists =>
        obtain ⟨repointed, unwatch⟩ := lists
        rw [hw] at h
        dsimp only at h
        have hwords := plan_widen_words hw
        obtain ⟨-, hlist⟩ := plan_widen_lists hw
        simp only [List.nil_append] at hlist
        by_cases hne : unwatch ≠ []
        · rw [if_pos hne] at h
          obtain ⟨hsub, hindex, sub, rfl, hpend⟩ := reserve_as_frame h
          refine ⟨⟨?_, ?_⟩, hsub, hindex⟩
          · obtain ⟨x, hx⟩ := List.exists_mem_of_ne_nil unwatch hne
            rw [hlist] at hx
            obtain ⟨r, hr, -⟩ := List.mem_map.mp hx
            exact (hwords r hr).2
          · intro k record hg hm
            rw [hlist] at hm
            obtain ⟨r, hr, hh⟩ := List.mem_map.mp hm
            obtain ⟨p, -, hgp⟩ := Radix.mem_descendants.mp hr
            rw [hindex] at hg
            rw [hs.rooted.unique hg hgp hh.symm, hgp] at hg
            cases hg
            exact (hwords record hr).1
        · rw [if_neg hne] at h
          obtain ⟨hsub, hindex, sub, rfl, -⟩ := reserve_as_frame h
          exact ⟨trivial, hsub, hindex⟩

end

end Subsumer

/-! ### Retirement -/

namespace Owner

theorem retire_root_worded (h : Proved s proved) (hw : Worded s words armed) (handle : H) :
    ∃ s', retire_root s handle = .ok s' ∧ Proved s' proved ∧ FewerHandles s s' ∧
      Worded s' words armed ∧ FewerSubs s s' ∧ s'.next_sub = s.next_sub ∧
      s'.pending = s.pending := by
  obtain ⟨s', he, hp, hf⟩ := retire_root_proved h handle
  refine ⟨s', he, hp, hf, ?_⟩
  obtain ⟨carried, hs⟩ := h.sound
  unfold retire_root at he
  rcases Subsumer.force_remove_root_cases hs handle with ⟨-, hc⟩ | ⟨k, hk, hc⟩
  · rw [hc] at he
    cases he
    exact ⟨hw, fun _ hn => hn, rfl, rfl⟩
  · rw [hc] at he
    cases he
    have hsubs : ∀ x : Subscription, (s.disbanded handle k).subs[x]? =
        if x ∈ cohort_of s.root_subs handle then none else s.subs[x]? := fun x => Subsumer.get_erase_all ..
    refine ⟨hw.fewer ?_ ?_, ?_, rfl, rfl⟩
    · intro k' record hg
      replace hg : Trie.get (Trie.remove s.index k) k' = some record := hg
      rw [Trie.get_remove] at hg
      split at hg
      · cases hg
      · exact hg
    · intro x r hx
      rw [hsubs] at hx
      split at hx
      · cases hx
      · exact hx
    · intro x hn
      rw [hsubs, hn, ite_self]

theorem retire_disarmed_roots_worded (unwatch : List H) (h : Proved s proved)
    (hw : Worded s words armed) : ∃ s', retire_disarmed_roots s unwatch = .ok s' ∧
      Proved s' proved ∧ Worded s' words armed ∧ FewerSubs s s' := by
  induction unwatch generalizing s with
  | nil => exact ⟨s, rfl, h, hw, fun _ hn => hn⟩
  | cons pending rest ih =>
    obtain ⟨s₁, h₁, hp, -, hw₁, hf₁, -, -⟩ := retire_root_worded h hw pending
    obtain ⟨s₂, h₂, hp₂, hw₂, hf₂⟩ := ih hp hw₁
    refine ⟨s₂, ?_, hp₂, hw₂, fun x hn => hf₂ x (hf₁ x hn)⟩
    unfold retire_disarmed_roots
    rw [h₁]
    exact h₂

section
omit [TransOrd C] [LawfulEqOrd C] [DecidableEq H] [TransOrd H] [LawfulEqOrd H] [Trie ScopeId T]

theorem abort_watch_worded (hw : Worded s words armed) (outcome : WatchOutcome H) :
    Worded (s.abort_watch outcome) words armed :=
  hw.fewer (fun _ _ hg => hg) fun _ _ hx => hx

end

/-- What settling a plan leaves: fewer roots and subscriptions, and a plan
    that suits its words, for a subscription minted on the way. -/
theorem settle_plan_worded (a : Answers C H) (key : List C) (value : V) (interest : Interest)
    (globs : RootGlobs) (fuel : Nat) {o : Option (WatchOutcome H)} (h : Proved s proved)
    (hw : Worded s words armed)
    (he : settle_plan a key value interest globs fuel s = .ok (o, s')) :
    Worded s' words armed ∧ FewerSubs s s' ∧
      ∀ outcome, o = some outcome → Suits s' globs outcome ∧ ¬ outcome.sub.scope < s.next_sub := by
  induction fuel generalizing s with
  | zero =>
    cases he
    exact ⟨hw, fun _ hn => hn, fun outcome ho => by cases ho⟩
  | succ fuel ih =>
    obtain ⟨carried, hs⟩ := h.sound
    unfold settle_plan at he
    rcases Subsumer.plan_watch_sound hs key value interest globs with
      ⟨conflict, hp⟩ | ⟨outcome, s₁, hp, ha⟩ | ⟨hp, -⟩
    · rw [hp] at he
      dsimp only at he
      by_cases hd : (a.root_key conflict.root).isNone = true
      · rw [if_pos hd] at he
        obtain ⟨s₁, h₁, hp₁, -, hw₁, hf₁, hn₁, -⟩ := retire_root_worded h hw conflict.root
        rw [h₁] at he
        obtain ⟨hw', hf', hset⟩ := ih hp₁ hw₁ he
        refine ⟨hw', fun x hx => hf' x (hf₁ x hx), ?_⟩
        intro outcome ho
        rw [← hn₁]
        exact hset outcome ho
      · rw [if_neg hd] at he
        cases he
        exact ⟨hw, fun _ hn => hn, fun outcome ho => by cases ho⟩
    · obtain ⟨hsuits, hsubs, hindex⟩ := Subsumer.plan_watch_suits hs hp
      have hw₁ : Worded s₁ words armed :=
        hw.fewer (fun _ _ hg => hindex ▸ hg) fun _ _ hx => hsubs ▸ hx
      have hf₁ : FewerSubs s s₁ := fun x hx => hsubs ▸ hx
      have hdone : ∀ {o : Option (WatchOutcome H)} {s' : Subsumer C V H R T},
          (.ok (some outcome, s₁) : Except Panic _) = .ok (o, s') →
          Worded s' words armed ∧ FewerSubs s s' ∧ ∀ outcome, o = some outcome →
            Suits s' globs outcome ∧ ¬ outcome.sub.scope < s.next_sub := by
        intro o s' heq
        cases heq
        refine ⟨hw₁, hf₁, ?_⟩
        intro outcome ho
        cases ho
        exact ⟨hsuits, ha.fresh⟩
      rw [hp] at he
      cases outcome with
      | widen repointed unwatch sub => exact hdone he
      | disjoint sub => exact hdone he
      | covered fs_root sub outside =>
        dsimp only at he
        by_cases hd : (a.root_key fs_root).isNone = true
        · rw [if_pos hd] at he
          have hp₁ : Proved s₁ proved := h.fewer ha.sound fun _ _ hg => hindex ▸ hg
          have hab := abort_watch_proved hp₁ (.covered fs_root sub outside)
          obtain ⟨s₂, h₂, hp₂, -, hw₂, hf₂, hn₂, -⟩ :=
            retire_root_worded hab (abort_watch_worded hw₁ (.covered fs_root sub outside)) fs_root
          rw [h₂] at he
          obtain ⟨hw', hf', hset⟩ := ih hp₂ hw₂ he
          refine ⟨hw', fun x hx => hf' x (hf₂ x (hf₁ x hx)), ?_⟩
          intro outcome ho
          obtain ⟨hsu, hfresh⟩ := hset outcome ho
          refine ⟨hsu, ?_⟩
          intro hlt
          apply hfresh
          rw [hn₂]
          exact Nat.lt_of_lt_of_le hlt ha.keeps.minted
        · rw [if_neg hd] at he
          exact hdone he
    · rw [hp] at he
      cases he

/-! ### Commits -/

/-- A call goes through, its subscription is the only one that may have come
    alive, and the words fit. -/
def Dressed (s : Subsumer C V H R T) (words : Subscription → RootGlobs)
    (armed : H → Option RootGlobs) (globs : RootGlobs) (sub : Subscription)
    (result : Proving C V H R T) (calls : List (SourceCall C H)) : Prop :=
  ∀ s' facts, result = .ok (s', facts) →
    Worded s' (Function.update words sub globs) (calls.foldl configure armed) ∧
      ∀ x : Subscription, x ≠ sub → s.subs[x]? = none → s'.subs[x]? = none

section
omit [TransOrd C] [LawfulEqOrd C] [TransOrd H] [LawfulEqOrd H] [Trie ScopeId T]

/-- A plan that is given up leaves no subscription behind. -/
theorem dressed_abort (hw : Worded s words armed) {t : Subsumer C V H R T} (hf : FewerSubs t s)
    {globs : RootGlobs} {sub : Subscription} (hn : s.subs[sub]? = none)
    (outcome : WatchOutcome H) (facts : List (Fact C H)) :
    Dressed t words armed globs sub (.ok (s.abort_watch outcome, facts)) [] := by
  intro s' facts' he
  cases he
  refine ⟨⟨?_, hw.configured⟩, fun x _ hx => hf x hx⟩
  intro x r k record hx hg hh
  have hne : x ≠ sub := by
    intro he
    replace hx : s.subs[x]? = some r := hx
    rw [he, hn] at hx
    cases hx
  rw [Function.update_of_ne hne]
  exact hw.fitted x r k record hx hg hh

end

section
omit [TransOrd C] [LawfulEqOrd C] [DecidableEq H] [LawfulEqOrd H]

/-- The subscriptions a covered commit adds. -/
theorem commit_covered_subs {sub : Subscription} {fs_root : H} {p : PendingWatch C V}
    (hp : s.pending[sub]? = some p) (he : s.commit_covered sub fs_root = .ok s') :
    s'.index = s.index ∧ s'.subs = s.subs.insert sub ⟨fs_root, p.key, p.interest⟩ := by
  unfold Subsumer.commit_covered at he
  rw [Subsumer.take_pending_ok hp] at he
  dsimp only at he
  split at he
  · cases he
  · cases he
    exact ⟨rfl, rfl⟩

end

section
omit [TransOrd C] [LawfulEqOrd C]

theorem commit_covered_worded (h : Proved s proved) (hw : Worded s words armed) {fs_root : H}
    {sub : Subscription} {outside : Bool} {globs : RootGlobs}
    (hp : Planned s (.covered fs_root sub outside)) (hsu : Suits s globs (.covered fs_root sub outside))
    (he : s.commit_covered sub fs_root = .ok s') :
    Worded s' (Function.update words sub globs) armed ∧
      ∀ x : Subscription, x ≠ sub → s.subs[x]? = none → s'.subs[x]? = none := by
  obtain ⟨carried, hs⟩ := h.sound
  obtain ⟨s₁, h₁, hs', -⟩ := Subsumer.commit_covered_sound hs hp
  rw [he] at h₁
  cases h₁
  obtain ⟨p, k, hpend, hk, -⟩ := hp
  obtain ⟨record, hg, hh⟩ := hs.rooted.handle fs_root k hk
  obtain ⟨hindex, hsubs⟩ := commit_covered_subs hpend he
  obtain ⟨hglobs, hanchor⟩ := hsu p k record hpend hg hh
  refine ⟨hw.write hs' (k := k) _ (hindex ▸ hg) (fun k' r' _ hg' => hindex ▸ hg') ?_
    (hw.configured k record hg) (fun _ _ => rfl), ?_⟩
  · intro x r' hx
    rw [hsubs, get_insert] at hx
    by_cases hxs : sub = x
    · subst hxs
      rw [if_pos rfl] at hx
      cases hx
      right
      rw [Function.update_self, hglobs]
      exact ⟨hh.symm, rfl, hanchor⟩
    · rw [if_neg hxs] at hx
      rw [Function.update_of_ne (Ne.symm hxs)]
      by_cases hroot : r'.root = record.handle
      · right
        obtain ⟨hwords, hkey⟩ := hw.fitted x r' k record hx hg hroot.symm
        exact ⟨hroot, hwords.symm, hkey⟩
      · exact .inl ⟨hroot, hx, rfl⟩
  · intro x hne hx
    rw [hsubs, get_insert, if_neg (Ne.symm hne)]
    exact hx

theorem commit_disjoint_worded (h : Proved s proved) (hw : Worded s words armed) {fs_root : H}
    {sub : Subscription} {key : List C} (hp : Planned s (.disjoint sub))
    (hf : s.by_handle[fs_root]? = none) (hk : s.fs_path_preserves_plan key [] = true)
    (globs : RootGlobs) (he : s.commit_disjoint sub fs_root key globs = .ok s') :
    Worded s' (Function.update words sub globs) (Function.update armed fs_root (some globs)) ∧
      ∀ x : Subscription, x ≠ sub → s.subs[x]? = none → s'.subs[x]? = none := by
  obtain ⟨carried, hs⟩ := h.sound
  obtain ⟨s₁, h₁, hs', -⟩ := Subsumer.commit_disjoint_sound hs hp hf hk globs
  rw [he] at h₁
  cases h₁
  obtain ⟨p, hpend⟩ := hp
  have hshape : s'.index = Trie.insert s.index key (Subsumer.armed_record fs_root key globs) ∧
      s'.subs = s.subs.insert sub ⟨fs_root, key, p.interest⟩ := by
    unfold Subsumer.commit_disjoint at he
    rw [Subsumer.take_pending_ok hpend] at he
    cases he
    exact ⟨rfl, rfl⟩
  obtain ⟨hindex, hsubs⟩ := hshape
  refine ⟨hw.write hs' (k := key) (Subsumer.armed_record fs_root key globs) ?_ ?_ ?_
    (Function.update_self ..) (fun _ hne => Function.update_of_ne hne ..), ?_⟩
  · rw [hindex, Trie.get_insert, if_pos rfl]
  · intro k' r' hne hg
    rw [hindex, Trie.get_insert, if_neg (Ne.symm hne)] at hg
    exact hg
  · intro x r' hx
    rw [hsubs, get_insert] at hx
    by_cases hxs : sub = x
    · subst hxs
      rw [if_pos rfl] at hx
      cases hx
      exact .inr ⟨rfl, Function.update_self .., fun _ => rfl⟩
    · rw [if_neg hxs] at hx
      left
      refine ⟨?_, hx, Function.update_of_ne (Ne.symm hxs) ..⟩
      intro hroot
      obtain ⟨k', hk'⟩ := hs.root_live hx
      replace hroot : r'.root = fs_root := hroot
      rw [hroot, hf] at hk'
      cases hk'
  · intro x hne hx
    rw [hsubs, get_insert, if_neg (Ne.symm hne)]
    exact hx

/-- Every re-pointed subscription was watched with the words of the wider
    root: the root it rode had the same. -/
theorem commit_widen_worded (h : Proved s proved) (hw : Worded s words armed) {fs_root : H}
    {sub : Subscription} {repointed : List Subscription} {u : List H} {key : List C}
    {globs : RootGlobs} (hp : Planned s (.widen repointed u sub))
    (hsu : Suits s globs (.widen repointed u sub))
    (hf : s.by_handle[fs_root]? = none ∨ fs_root ∈ u)
    (hk : s.fs_path_preserves_plan key u = true) (ha : armed' fs_root = some globs)
    (hne : ∀ handle, handle ≠ fs_root → armed' handle = armed handle)
    (he : s.commit_widen repointed u sub fs_root key globs = .ok s') :
    Worded s' (Function.update words sub globs) armed' ∧
      ∀ x : Subscription, x ≠ sub → s.subs[x]? = none → s'.subs[x]? = none := by
  obtain ⟨carried, hs⟩ := h.sound
  obtain ⟨s₁, h₁, hs', -⟩ := Subsumer.commit_widen_sound hs hp hf hk globs
  rw [he] at h₁
  cases h₁
  obtain ⟨⟨p, hpend⟩, -, hmem, -⟩ := hp
  obtain ⟨hprune, hsame⟩ := hsu
  have hlive : ∀ x ∈ repointed, ∃ r, s.subs[x]? = some r := by
    intro x hx
    obtain ⟨h, -, hx⟩ := (hmem x).mp hx
    obtain ⟨r, hr, -⟩ := hs.housed.live hx
    exact ⟨r, hr⟩
  obtain ⟨subs, hok, hget⟩ := Subsumer.repoint_all_ok fs_root hlive
  have hshape : s'.index = Trie.insert (Radix.remove_descendants s.index key) key
        (Subsumer.armed_record fs_root key globs) ∧
      s'.subs = subs.insert sub ⟨fs_root, key, p.interest⟩ := by
    unfold Subsumer.commit_widen at he
    rw [Subsumer.take_pending_ok hpend] at he
    dsimp only at he
    rw [hok] at he
    cases he
    exact ⟨rfl, rfl⟩
  obtain ⟨hindex, hsubs⟩ := hshape
  refine ⟨hw.write hs' (k := key) (Subsumer.armed_record fs_root key globs) ?_ ?_ ?_ ha
    hne, ?_⟩
  · rw [hindex, Trie.get_insert, if_pos rfl]
  · intro k' r' hne' hg
    rw [hindex, Trie.get_insert, if_neg (Ne.symm hne'), Radix.get_remove_descendants] at hg
    split at hg
    · cases hg
    · exact hg
  · intro x r' hx
    rw [hsubs, get_insert] at hx
    by_cases hxs : sub = x
    · subst hxs
      rw [if_pos rfl] at hx
      cases hx
      exact .inr ⟨rfl, Function.update_self .., fun _ => rfl⟩
    · rw [if_neg hxs, hget] at hx
      rw [Function.update_of_ne (Ne.symm hxs)]
      by_cases hm : x ∈ repointed
      · rw [if_pos hm] at hx
        obtain ⟨r, hr, rfl⟩ := Option.map_eq_some_iff.mp hx
        obtain ⟨h₀, hu, hco⟩ := (hmem x).mp hm
        obtain ⟨r₀, hr₀, hroot⟩ := hs.housed.live hco
        rw [hr] at hr₀
        cases hr₀
        obtain ⟨k₀, hk₀⟩ := hs.root_live hr
        obtain ⟨old, hg₀, hh₀⟩ := hs.rooted.handle r.root k₀ hk₀
        have hglobs := hsame k₀ old hg₀ (by rw [hh₀, hroot]; exact hu)
        obtain ⟨hwords, -⟩ := hw.fitted x r k₀ old hr hg₀ hh₀
        exact .inr ⟨rfl, hwords.symm.trans hglobs, fun hne' => absurd hprune hne'⟩
      · rw [if_neg hm] at hx
        left
        refine ⟨?_, hx, rfl⟩
        intro hroot
        replace hroot : r'.root = fs_root := hroot
        rcases hf with hf | hf
        · obtain ⟨k', hk'⟩ := hs.root_live hx
          rw [hroot, hf] at hk'
          cases hk'
        · -- the cohort of a subsumed root is re-pointed
          exact hm ((hmem x).mpr ⟨fs_root, hf, (hs.housed.rides x fs_root).mpr ⟨r', hx, hroot⟩⟩)
  · intro x hne' hx
    have hm : x ∉ repointed := by
      intro hm
      obtain ⟨r, hr⟩ := hlive x hm
      rw [hx] at hr
      cases hr
    rw [hsubs, get_insert, if_neg (Ne.symm hne'), hget, if_neg hm]
    exact hx

end

/-! ### Covers and rebinds -/

section
omit [TransOrd C] [LawfulEqOrd C] [LawfulEqOrd H]

/-- Another cover for a root changes no words. -/
theorem set_retained_cover_worded (hs : Sound s carried) (hw : Worded s words armed) (handle : H)
    (cover : Option (List (List C))) : Worded (s.set_retained_cover handle cover) words armed ∧
      (s.set_retained_cover handle cover).subs = s.subs := by
  have hsound := (Subsumer.set_retained_cover_sound hs handle cover).1
  rcases Subsumer.set_retained_cover_cases hs handle cover with ⟨-, he⟩ | ⟨k, r, -, hg, -, he⟩
  · rw [he]
    exact ⟨hw, rfl⟩
  · rw [he] at hsound ⊢
    have hget : ∀ k', Trie.get (s.recovered k r cover).index k' =
        if k = k' then some { r with retained_cover := cover } else Trie.get s.index k' :=
      fun k' => Trie.get_insert ..
    refine ⟨hw.write hsound (k := k) { r with retained_cover := cover } ?_ ?_ ?_
      (hw.configured k r hg) (fun _ _ => rfl), rfl⟩
    · rw [hget, if_pos rfl]
    · intro k' r' hne hg'
      rw [hget, if_neg (Ne.symm hne)] at hg'
      exact hg'
    · intro x r' hx
      by_cases hroot : r'.root = r.handle
      · obtain ⟨hwords, hkey⟩ := hw.fitted x r' k r hx hg hroot.symm
        exact .inr ⟨hroot, hwords.symm, hkey⟩
      · exact .inl ⟨hroot, hx, rfl⟩

theorem degrade_retained_cover_worded (hs : Sound s carried) (hw : Worded s words armed)
    (handle : H) : Worded (s.degrade_retained_cover handle) words armed := by
  rcases Subsumer.degrade_retained_cover_cases hs handle with he | he
  · rw [he]
    exact hw
  · rw [he]
    exact (set_retained_cover_worded hs hw handle (some [])).1

end

section
omit [TransOrd C] [LawfulEqOrd C]

/-- A rebound root keeps its words, and was re-armed with them. -/
theorem rebind_root_worded (hs : Sound s carried) (hw : Worded s words armed) {old new : H}
    {k : List C} {cohort : List Subscription} (hv : s.root_view old = some (k, cohort))
    (hnew : s.by_handle[new]? = none) :
    Worded (s.rebind_root old new) words
        (Function.update armed new (some ((s.root_globs old).getD .new))) ∧
      FewerSubs s (s.rebind_root old new) := by
  have hsound := (Subsumer.rebind_root_sound hs old new (.inr hnew)).1
  unfold Subsumer.root_view Subsumer.entry at hv
  rcases Subsumer.rebind_root_cases hs old new with ⟨hn, -⟩ | ⟨k', r, hk, hg, hh, he⟩
  · rw [hn] at hv
    cases hv
  · have hglobs : (s.root_globs old).getD .new = r.globs := by
      unfold Subsumer.root_globs Subsumer.entry
      rw [hk, Option.bind_some, hg]
      rfl
    rw [he] at hsound ⊢
    rw [hglobs]
    have hget : ∀ p, Trie.get (s.rebound old new k' r).index p =
        if k' = p then some { r with handle := new } else Trie.get s.index p :=
      fun p => Trie.get_insert ..
    have hsubs : ∀ x : Subscription, (s.rebound old new k' r).subs[x]? =
        if x ∈ cohort_of s.root_subs old then (s.subs[x]?).map (SubRecord.ride new)
        else s.subs[x]? := fun x => Subsumer.get_modify_all ..
    refine ⟨hw.write hsound (k := k') { r with handle := new } ?_ ?_ ?_
      (Function.update_self ..) (fun _ hne => Function.update_of_ne hne ..), ?_⟩
    · rw [hget, if_pos rfl]
    · intro p r' hne hg'
      rw [hget, if_neg (Ne.symm hne)] at hg'
      exact hg'
    · intro x r' hx
      rw [hsubs] at hx
      by_cases hm : x ∈ cohort_of s.root_subs old
      · rw [if_pos hm] at hx
        obtain ⟨r₀, hr₀, rfl⟩ := Option.map_eq_some_iff.mp hx
        obtain ⟨r₁, hr₁, hroot⟩ := hs.housed.live hm
        rw [hr₀] at hr₁
        cases hr₁
        obtain ⟨hwords, hkey⟩ := hw.fitted x r₀ k' r hr₀ hg (hh.trans hroot.symm)
        exact .inr ⟨rfl, hwords.symm, hkey⟩
      · rw [if_neg hm] at hx
        left
        refine ⟨?_, hx, rfl⟩
        intro hroot
        replace hroot : r'.root = new := hroot
        obtain ⟨p, hp⟩ := hs.root_live hx
        rw [hroot, hnew] at hp
        cases hp
    · intro x hn
      rw [hsubs, hn]
      exact ite_self _

end

/-! ### Watches -/

section Watch

variable (a : Answers C H) {key : List C} {globs : RootGlobs} {outcome : WatchOutcome H}

/-- The words after the roots that were released are re-armed. -/
theorem restore_disarmed_roots_worded (unwatch : List H) (rest : List H)
    (hdistinct : ∀ old old' new key key', a.rearm old = .armed new key →
      a.rearm old' = .armed new key' → old = old')
    (hfresh : ∀ old new key, a.rearm old = .armed new key → new ∉ rest)
    (hlive : ∀ old ∈ rest, ∀ new key, a.rearm old = .armed new key →
      s.by_handle[old]? = none ∨ s.by_handle[new]? = none)
    (h : Proved s proved) (hw : Worded s words armed) {facts : List (Fact C H)}
    (he : restore_disarmed_roots a unwatch rest s = .ok (s', facts)) :
    Worded s' words ((restore_calls a rest s).foldl configure armed) ∧ FewerSubs s s' := by
  induction rest generalizing s proved armed facts with
  | nil =>
    cases he
    exact ⟨hw, fun _ hn => hn⟩
  | cons old rest ih =>
    obtain ⟨carried, hs⟩ := h.sound
    have hfresh' : ∀ old new key, a.rearm old = .armed new key → new ∉ rest :=
      fun o n k hr hm => hfresh o n k hr (List.mem_cons_of_mem _ hm)
    obtain ⟨s₁, h₁, -, hw₁, hf₁⟩ := retire_disarmed_roots_worded unwatch h hw
    obtain ⟨s₂, h₂, hp₂, hh₂, -, hf₂, -, -⟩ := retire_root_worded h hw old
    have hlive₂ : ∀ o ∈ rest, ∀ n k, a.rearm o = .armed n k →
        s₂.by_handle[o]? = none ∨ s₂.by_handle[n]? = none := by
      intro o hm n k hr
      exact (hlive o (List.mem_cons_of_mem _ hm) n k hr).imp (hh₂ o) (hh₂ n)
    -- a root that is not re-armed is retired, whatever was armed for it
    have hone : ∀ {armed' : H → Option RootGlobs}, Worded s words armed' →
        restore_disarmed_roots a unwatch rest s₂ = .ok (s', facts) →
        Worded s' words ((restore_calls a rest s₂).foldl configure armed') ∧ FewerSubs s s' := by
      intro armed' hw' he'
      obtain ⟨s₃, h₃, hp₃, -, hw₃, -, -, -⟩ := retire_root_worded h hw' old
      rw [h₂] at h₃
      cases h₃
      obtain ⟨hd, hf⟩ := ih hfresh' hlive₂ hp₂ hw₃ he'
      exact ⟨hd, fun x hn => hf x (hf₂ x hn)⟩
    unfold restore_disarmed_roots at he
    unfold restore_calls
    rw [h₁, h₂] at he
    rw [h₂]
    dsimp only at he ⊢
    by_cases hpr : a.probe old = true
    · rw [if_pos hpr] at he ⊢
      cases he
      exact ⟨hw₁, hf₁⟩
    · rw [if_neg hpr] at he ⊢
      cases hv : s.root_view old with
      | none =>
        rw [hv] at he
        exact ih hfresh' (fun o hm => hlive o (List.mem_cons_of_mem _ hm)) h hw he
      | some view =>
        obtain ⟨root_key, cohort⟩ := view
        rw [hv] at he
        dsimp only at he ⊢
        rw [List.foldl_cons]
        unfold rearm_call
        cases hr : a.rearm old with
        | refused =>
          rw [hr] at he
          exact hone hw he
        | terminal =>
          rw [hr] at he
          cases he
          exact ⟨hw₁, hf₁⟩
        | armed new fs_key =>
          rw [hr] at he
          dsimp only at he ⊢
          have hnew : s.by_handle[new]? = none := by
            refine (hlive old List.mem_cons_self new fs_key hr).resolve_left ?_
            intro hn
            unfold Subsumer.root_view Subsumer.entry at hv
            rw [hn] at hv
            cases hv
          have harm : configure armed (.arm root_key ((s.root_globs old).getD .new)
              (RearmStep.handle (.armed new fs_key))) =
              Function.update armed new (some ((s.root_globs old).getD .new)) := rfl
          rw [harm]
          by_cases hk : fs_key = root_key
          · rw [if_pos hk] at he ⊢
            obtain ⟨hp, hkeep⟩ := rebind_root_proved h hv hnew
            obtain ⟨hw', hf'⟩ := rebind_root_worded hs hw hv hnew
            have hlive' : ∀ o ∈ rest, ∀ n k, a.rearm o = .armed n k →
                (s.rebind_root old new).by_handle[o]? = none ∨
                  (s.rebind_root old new).by_handle[n]? = none := by
              intro o hm n k hr'
              have hon : o ≠ new := fun heq =>
                hfresh old new fs_key hr (List.mem_cons_of_mem _ (heq ▸ hm))
              by_cases hn : n = new
              · have heq : o = old := hdistinct o old new k fs_key (hn ▸ hr') hr
                exact .inl (hkeep o hon (.inl heq))
              · exact (hlive o (List.mem_cons_of_mem _ hm) n k hr').imp
                  (fun hd => hkeep o hon (.inr hd)) fun hd => hkeep n hn (.inr hd)
            cases hrest : restore_disarmed_roots a unwatch rest (s.rebind_root old new) with
            | error e =>
              rw [hrest] at he
              cases he
            | ok out =>
              rw [hrest] at he
              cases he
              obtain ⟨hd, hf⟩ := ih hfresh' hlive' hp hw' hrest
              exact ⟨hd, fun x hn => hf x (hf' x hn)⟩
          · rw [if_neg hk] at he ⊢
            rw [List.foldl_cons]
            exact hone (hw.arm hs hnew _) he

section
omit [TransOrd C] [LawfulEqOrd C] [DecidableEq H] [LawfulEqOrd H]

/-- The subscription of a settled plan is not live yet. -/
theorem Settled.unborn (h : Settled s proved key outcome) : s.subs[outcome.sub]? = none := by
  obtain ⟨carried, hs⟩ := h.proved.sound
  obtain ⟨p, hp, -⟩ := h.pending
  exact (hs.minted.planned outcome.sub p hp).2.2.1

end

section
omit [TransOrd C] [LawfulEqOrd C]

theorem watch_covered_dressed {fs_root : H} {sub : Subscription} {outside : Bool}
    (h : Settled s proved key (.covered fs_root sub outside)) (hw : Worded s words armed)
    (hsu : Suits s globs (.covered fs_root sub outside)) :
    Dressed s words armed globs sub
      (watch_covered a key globs s (.covered fs_root sub outside) fs_root outside) [] := by
  have hcommit : ∀ s₁, s.commit_covered sub fs_root = .ok s₁ →
      Worded s₁ (Function.update words sub globs) armed ∧
        ∀ x : Subscription, x ≠ sub → s.subs[x]? = none → s₁.subs[x]? = none :=
    fun s₁ h₁ => commit_covered_worded h.proved hw h.planned hsu h₁
  have hplain : Dressed s words armed globs sub
      (commit_proving s (.covered fs_root sub outside) fs_root key globs []) [] := by
    intro s' facts he
    replace he : (match s.commit_covered sub fs_root with
      | .error e => .error e
      | .ok s => .ok (s, []) : Proving C V H R T) = .ok (s', facts) := he
    cases h₁ : s.commit_covered sub fs_root with
    | error e =>
      rw [h₁] at he
      cases he
    | ok s₁ =>
      rw [h₁] at he
      cases he
      exact hcommit _ h₁
  have hgrown : ∀ grown record, Dressed s words armed globs sub
      (commit_grown a key globs s (.covered fs_root sub outside) fs_root grown record) [] := by
    intro grown record
    unfold commit_grown
    by_cases hg : a.grow = true
    · rw [if_pos hg]
      intro s' facts he
      replace he : (match s.commit_covered sub fs_root with
        | .error e => .error e
        | .ok s => .ok (s.set_retained_cover fs_root record, [.grew fs_root grown]) :
          Proving C V H R T) = .ok (s', facts) := he
      cases h₁ : s.commit_covered sub fs_root with
      | error e =>
        rw [h₁] at he
        cases he
      | ok s₁ =>
        rw [h₁] at he
        cases he
        obtain ⟨hw₁, hf₁⟩ := hcommit _ h₁
        obtain ⟨s₂, h₂, hp₂, -⟩ := commit_covered_proved h.proved h.planned
        rw [h₁] at h₂
        cases h₂
        obtain ⟨carried, hs₁⟩ := hp₂.sound
        obtain ⟨hw₂, hsame⟩ := set_retained_cover_worded hs₁ hw₁ fs_root record
        refine ⟨hw₂, ?_⟩
        intro x hne hn
        rw [hsame]
        exact hf₁ x hne hn
    · rw [if_neg hg]
      exact dressed_abort hw (fun _ hn => hn) h.unborn _ _
  unfold watch_covered
  by_cases ho : outside = true
  · rw [if_pos ho]
    cases s.retained_cover_for fs_root (some key) with
    | error e =>
      intro s' facts he
      cases he
    | ok answer =>
      cases answer with
      | some cover => exact hgrown cover (some cover)
      | none =>
        dsimp only
        cases s.entry fs_root with
        | none => exact hplain
        | some record => exact hgrown [record.key] none
  · rw [if_neg ho]
    exact hplain

theorem watch_disjoint_dressed {sub : Subscription} (hu : Unique s a)
    (h : Settled s proved key (.disjoint sub)) (hw : Worded s words armed) :
    Dressed s words armed globs sub (watch_disjoint a globs s (.disjoint sub))
      (disjoint_calls a key globs s) := by
  obtain ⟨carried, hs⟩ := h.proved.sound
  have habort : ∀ {armed' : H → Option RootGlobs}, Worded s words armed' →
      Dressed s words armed' globs sub (.ok (s.abort_watch (.disjoint sub), [])) [] :=
    fun hw' => dressed_abort hw' (fun _ hn => hn) h.unborn _ _
  unfold watch_disjoint disjoint_calls arm_call
  cases ha : a.arm with
  | failed => exact habort hw
  | stopped => exact habort hw
  | armed handle fs_key =>
    have hn := hu.arm handle fs_key ha
    dsimp only
    by_cases hk : s.fs_path_preserves_plan fs_key [] = true
    · rw [if_pos hk, if_pos hk]
      intro s' facts he
      replace he : (match s.commit_disjoint sub handle fs_key globs with
        | .error e => .error e
        | .ok s => .ok (s, [.armed handle fs_key]) : Proving C V H R T) = .ok (s', facts) := he
      cases h₁ : s.commit_disjoint sub handle fs_key globs with
      | error e =>
        rw [h₁] at he
        cases he
      | ok s₁ =>
        rw [h₁] at he
        cases he
        exact commit_disjoint_worded h.proved hw h.planned hn hk globs h₁
    · rw [if_neg hk, if_neg hk]
      exact habort (hw.arm hs hn (some globs))

end

/-! ### Wider roots -/

theorem restore_dressed (hu : Unique s a) {repointed : List Subscription} {unwatch : List H}
    {sub : Subscription} (h : Settled s proved key (.widen repointed unwatch sub))
    (hw : Worded s words armed) :
    Dressed s words armed globs sub
      (abort_after (.widen repointed unwatch sub) (restore_disarmed_roots a unwatch unwatch s))
      (restore_calls a unwatch s) := by
  have hfresh : ∀ old new key, a.rearm old = .armed new key → new ∉ unwatch := by
    intro old new k hr hm
    obtain ⟨-, -, -, hlive⟩ := h.planned
    obtain ⟨k', hk'⟩ := hlive new hm
    rw [hu.rearm old new k hr] at hk'
    cases hk'
  intro s' facts he
  cases hrest : restore_disarmed_roots a unwatch unwatch s with
  | error e =>
    rw [hrest] at he
    cases he
  | ok out =>
    rw [hrest] at he
    obtain ⟨hw', hf⟩ := restore_disarmed_roots_worded a unwatch unwatch hu.distinct hfresh
      (fun old _ new k hr => .inr (hu.rearm old new k hr)) h.proved hw hrest
    exact dressed_abort hw' hf (hf sub h.unborn) _ _ s' facts he

section
omit [TransOrd C] [LawfulEqOrd C]

theorem commit_widen_dressed {handle : H} {fs_key : List C} {repointed : List Subscription}
    {unwatch : List H} {sub : Subscription} {facts : List (Fact C H)}
    {calls : List (SourceCall C H)}
    (h : Settled s proved key (.widen repointed unwatch sub)) (hw : Worded s words armed)
    (hsu : Suits s globs (.widen repointed unwatch sub))
    (hf : s.by_handle[handle]? = none ∨ handle ∈ unwatch)
    (hk : s.fs_path_preserves_plan fs_key unwatch = true)
    (ha : calls.foldl configure armed handle = some globs)
    (hne : ∀ x, x ≠ handle → calls.foldl configure armed x = armed x) :
    Dressed s words armed globs sub
      (commit_proving s (.widen repointed unwatch sub) handle fs_key globs facts) calls := by
  intro s' facts' he
  replace he : (match s.commit_widen repointed unwatch sub handle fs_key globs with
    | .error e => .error e
    | .ok s => .ok (s, facts) : Proving C V H R T) = .ok (s', facts') := he
  cases h₁ : s.commit_widen repointed unwatch sub handle fs_key globs with
  | error e =>
    rw [h₁] at he
    cases he
  | ok s₁ =>
    rw [h₁] at he
    cases he
    exact commit_widen_worded h.proved hw h.planned hsu hf hk ha hne h₁

end

section
omit [DecidableEq C] [Ord C] [TransOrd C] [LawfulEqOrd C] [Ord H] [TransOrd H] [LawfulEqOrd H]

/-- Releases arm nothing. -/
theorem configure_disarms (armed : H → Option RootGlobs) (unwatch : List H) :
    (unwatch.map (SourceCall.disarm (C := C))).foldl configure armed = armed := by
  induction unwatch with
  | nil => rfl
  | cons old rest ih => exact ih

end

theorem release_and_arm_dressed (hu : Unique s a) {repointed : List Subscription}
    {unwatch : List H} {sub : Subscription}
    (h : Settled s proved key (.widen repointed unwatch sub)) (hw : Worded s words armed)
    (hsu : Suits s globs (.widen repointed unwatch sub)) :
    Dressed s words armed globs sub
      (release_and_arm a globs s (.widen repointed unwatch sub) unwatch)
      (release_and_arm_calls a key globs s unwatch) := by
  obtain ⟨carried, hs⟩ := h.proved.sound
  have hcalls : ∀ rest : List (SourceCall C H), (unwatch.map SourceCall.disarm ++ rest).foldl
      configure armed = rest.foldl configure armed := by
    intro rest
    rw [List.foldl_append, configure_disarms]
  unfold release_and_arm release_and_arm_calls arm_call
  cases ha : a.arm with
  | stopped =>
    obtain ⟨s₁, h₁, -, hw₁, hf₁⟩ := retire_disarmed_roots_worded unwatch h.proved hw
    dsimp only
    rw [h₁]
    intro s' facts he
    rw [hcalls]
    exact dressed_abort hw₁ hf₁ (hf₁ sub h.unborn) _ _ s' facts he
  | failed =>
    intro s' facts he
    rw [hcalls]
    exact restore_dressed a hu h hw s' facts he
  | armed handle fs_key =>
    have hn := hu.arm handle fs_key ha
    dsimp only
    by_cases hk : s.fs_path_preserves_plan fs_key unwatch = true
    · rw [if_pos hk, if_pos hk]
      refine commit_widen_dressed h hw hsu (.inl hn) hk ?_ ?_
      · rw [hcalls]
        exact Function.update_self ..
      · intro x hx
        rw [hcalls]
        exact Function.update_of_ne hx ..
    · rw [if_neg hk, if_neg hk]
      intro s' facts he
      rw [hcalls]
      exact restore_dressed a hu h (hw.arm hs hn (some globs)) s' facts he

/-- A root that is retargeted in place keeps the words it was armed with, and
    they are the newcomer's. -/
theorem replace_in_place_dressed (hu : Unique s a) {repointed : List Subscription} {only : H}
    {sub : Subscription} (h : Settled s proved key (.widen repointed [only] sub))
    (hw : Worded s words armed) (hsu : Suits s globs (.widen repointed [only] sub))
    (only_key : List C) :
    Dressed s words armed globs sub
      (replace_in_place a globs s (.widen repointed [only] sub) [only] only only_key)
      (replace_calls a key globs s [only] only only_key) := by
  have habort : ∀ {calls : List (SourceCall C H)}, calls.foldl configure armed = armed →
      Dressed s words armed globs sub
        (.ok (s.abort_watch (.widen repointed [only] sub), [])) calls := by
    intro calls hc s' facts he
    rw [hc]
    exact dressed_abort hw (fun _ hn => hn) h.unborn _ _ s' facts he
  have hretire : ∀ {handle : H} {calls : List (SourceCall C H)},
      calls.foldl configure armed = armed →
      Dressed s words armed globs sub
        (retire_and_abort s (.widen repointed [only] sub) handle) calls := by
    intro handle calls hc s' facts he
    obtain ⟨s₁, h₁, -, -, hw₁, hf₁, -, -⟩ := retire_root_worded h.proved hw handle
    unfold retire_and_abort at he
    rw [h₁] at he
    rw [hc]
    exact dressed_abort hw₁ hf₁ (hf₁ sub h.unborn) _ _ s' facts he
  unfold replace_in_place replace_calls
  cases ha : a.replace only with
  | refused => exact habort rfl
  | stopped => exact habort rfl
  | failed =>
    intro s' facts he
    exact release_and_arm_dressed a hu h hw hsu s' facts he
  | replaced handle fs_key =>
    have hsame : handle = only := hu.replace only handle fs_key ha
    subst hsame
    dsimp only
    by_cases hk : s.fs_path_preserves_plan fs_key [handle] = true
    · rw [if_pos hk, if_pos hk]
      obtain ⟨carried, hs⟩ := h.proved.sound
      have hplanned := h.planned
      obtain ⟨-, -, -, hlive⟩ := hplanned
      obtain ⟨k, hkey⟩ := hlive handle List.mem_cons_self
      obtain ⟨record, hg, hh⟩ := hs.rooted.handle handle k hkey
      have hglobs : record.globs = globs := hsu.2 k record hg (hh ▸ List.mem_cons_self)
      have hrecorded : (s.root_globs handle).getD .new = globs := by
        unfold Subsumer.root_globs Subsumer.entry
        rw [hkey, Option.bind_some, hg]
        exact hglobs
      rw [hrecorded]
      refine commit_widen_dressed h hw hsu (.inr List.mem_cons_self) hk ?_ (fun _ _ => rfl)
      have hconf := hw.configured k record hg
      rw [hh, hglobs] at hconf
      exact hconf
    · rw [if_neg hk, if_neg hk]
      cases a.rollback handle with
      | stopped => exact habort rfl
      | refused => exact hretire rfl
      | failed => exact hretire rfl
      | replaced _ back_key =>
        dsimp only
        by_cases hb : back_key = only_key
        · rw [if_pos hb, if_pos hb]
          exact habort rfl
        · rw [if_neg hb, if_neg hb]
          exact hretire rfl

theorem watch_widen_dressed (hu : Unique s a) {repointed : List Subscription}
    {unwatch : List H} {sub : Subscription}
    (h : Settled s proved key (.widen repointed unwatch sub)) (hw : Worded s words armed)
    (hsu : Suits s globs (.widen repointed unwatch sub)) :
    Dressed s words armed globs sub
      (watch_widen a globs s (.widen repointed unwatch sub) unwatch)
      (widen_calls a key globs s unwatch) := by
  have hrelease := release_and_arm_dressed a hu h hw hsu
  cases unwatch with
  | nil => exact hrelease
  | cons only rest =>
    cases rest with
    | cons _ _ => exact hrelease
    | nil =>
      unfold watch_widen widen_calls
      dsimp only
      cases a.root_key only with
      | some only_key => exact replace_in_place_dressed a hu h hw hsu only_key
      | none => exact hrelease

end Watch

/-- A subscription that comes alive during a watch carries its words. -/
def worn (s s' : Subsumer C V H R T) (globs : RootGlobs) (words : Subscription → RootGlobs)
    (x : Subscription) : RootGlobs :=
  if s.subs[x]? = none ∧ s'.subs[x]? ≠ none then globs else words x

/-- A watch keeps the words of every subscription those of its root. -/
theorem watch_worded {a : Answers C H} (hu : Unique s a) (h : Proved s proved)
    (hw : Worded s words armed) {key : List C} {value : V} {interest : Interest}
    {globs : RootGlobs} {facts : List (Fact C H)}
    (he : watch a key value interest globs s = .ok (s', facts)) :
    Worded s' (worn s s' globs words)
      ((watch_calls a key value interest globs s).foldl configure armed) := by
  obtain ⟨carried, hs⟩ := h.sound
  unfold watch at he
  unfold watch_calls
  rcases settle_plan_proved a key value interest globs (s.by_handle.size + 1) h with
    ⟨o, s₁, hset, hp, hf, hsettled⟩ | hset
  · obtain ⟨hw₁, hf₁, hsuits⟩ := settle_plan_worded a key value interest globs _ h hw hset
    rw [hset] at he ⊢
    -- what is live after the watch was live before it, or is its own subscription
    have hcarry : ∀ {sub : Subscription} {armed' : H → Option RootGlobs},
        ¬ sub.scope < s.next_sub →
        Worded s' (Function.update words sub globs) armed' →
        (∀ x : Subscription, x ≠ sub → s₁.subs[x]? = none → s'.subs[x]? = none) →
        Worded s' (worn s s' globs words) armed' := by
      intro sub armed' hfresh hd hn
      refine ⟨?_, hd.configured⟩
      intro x r k record hx hg hh
      have hsame : worn s s' globs words x = Function.update words sub globs x := by
        unfold worn
        by_cases hxs : x = sub
        · rw [hxs, Function.update_self, if_pos]
          refine ⟨?_, ?_⟩
          · cases hl : s.subs[sub]? with
            | none => rfl
            | some r₀ => exact absurd (hs.minted.live sub r₀ hl).2 hfresh
          · rw [← hxs, hx]
            exact Option.some_ne_none r
        · rw [Function.update_of_ne hxs, if_neg]
          intro hcond
          exact hcond.2 (hn x hxs (hf₁ x hcond.1))
      rw [hsame]
      exact hd.fitted x r k record hx hg hh
    cases o with
    | none =>
      cases he
      refine ⟨?_, hw₁.configured⟩
      intro x r k record hx hg hh
      have hsame : worn s s' globs words x = words x := by
        apply if_neg
        intro hcond
        exact hcond.2 (hf₁ x hcond.1)
      rw [hsame]
      exact hw₁.fitted x r k record hx hg hh
    | some outcome =>
      have hsettle := hsettled outcome rfl
      obtain ⟨hsu, hfresh⟩ := hsuits outcome rfl
      have hu₁ := hu.fewer hf
      cases outcome with
      | covered fs_root sub outside =>
        obtain ⟨hd, hn⟩ := watch_covered_dressed a hsettle hw₁ hsu s' facts he
        exact hcarry hfresh hd hn
      | disjoint sub =>
        obtain ⟨hd, hn⟩ := watch_disjoint_dressed a hu₁ hsettle hw₁ s' facts he
        exact hcarry hfresh hd hn
      | widen repointed unwatch sub =>
        obtain ⟨hd, hn⟩ := watch_widen_dressed a hu₁ hsettle hw₁ hsu s' facts he
        exact hcarry hfresh hd hn
  · rw [hset] at he
    cases he

end Owner

end Umbrella
