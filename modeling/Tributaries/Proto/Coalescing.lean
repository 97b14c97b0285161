import Tributaries.Region
import Tributaries.Proto.Stream
import Tributaries.Proto.Settlement

/-! # Coalescing

  A change the Monitor does not queue because it coalesces has an equal
  change standing in the queue, and nothing queued behind that one or
  parked as a half touches what the change touches.  So a consumer that
  applies changes to a path tree ends with the view it would have had if
  the change had been queued.
-/

open Std Collections Region

namespace Proto

variable {m : Monitor} {scope : ScopeId} {location : Location} {kind : ChangeKind}

/-! ### What a coalesce finds -/

theorem locations_touch_iff {a b : Location} :
    Monitor.locations_touch a b = true ↔ ¬ Apart a b := by
  unfold Monitor.locations_touch
  rw [Bool.or_eq_true, Location.starts_with_iff, Location.starts_with_iff, Apart]
  tauto

/-- The kind of a change is its tag and its source. -/
theorem kind_ext {k l : ChangeKind} (ht : Monitor.kind_tag k = Monitor.kind_tag l)
    (hs : k.moved_from = l.moved_from) : k = l := by
  cases k <;> cases l <;> simp_all [Monitor.kind_tag, ChangeKind.moved_from]

/-- No location the one change touches is in the hierarchy of one the other touches. -/
def Unrelated (location : Location) (kind : ChangeKind) (location' : Location)
    (kind' : ChangeKind) : Prop :=
  ∀ a ∈ Monitor.touched location kind, ∀ b ∈ Monitor.touched location' kind', Apart a b

theorem change_touches_false {queued : Change}
    (h : Monitor.change_touches scope (Monitor.touched location kind) queued = false)
    (hs : queued.scope = scope) :
    Unrelated queued.location queued.kind location kind := by
  intro a ha b hb
  by_contra hab
  have htouch := locations_touch_iff.mpr hab
  have hyes : Monitor.change_touches scope (Monitor.touched location kind) queued = true := by
    unfold Monitor.change_touches
    rw [Bool.and_eq_true, beq_iff_eq, List.any_eq_true]
    refine ⟨hs, b, hb, ?_⟩
    rw [Bool.or_eq_true]
    rcases List.mem_cons.mp ha with rfl | ha
    · exact .inl htouch
    · right
      rw [Option.any_eq_true]
      exact ⟨a, Option.mem_toList.mp ha, htouch⟩
  rw [h] at hyes
  cases hyes

/-- The survivor a change coalesces into: an equal change, with nothing of the
    scope that touches it queued behind it or parked with a live anchor. -/
structure Survives (m : Monitor) (scope : ScopeId) (location : Location) (kind : ChangeKind) :
    Prop where
  queued : ∃ before queued after, m.events = before ++ queued :: after ∧
    queued.scope = scope ∧ queued.location = location ∧ queued.kind = kind ∧
    ∀ change ∈ after, change.scope = scope →
      Unrelated change.location change.kind location kind
  latent : ∀ (cookie : MoveCookie) (half : PendingMove),
    m.pending_moves[(scope, cookie)]? = some half → m.is_watched half.from_parent = true →
      ∀ loc ∈ Monitor.touched location kind, Apart (m.pending_from half) loc

theorem Survives.of_coalesce (h : m.would_coalesce scope location kind = true) :
    Survives m scope location kind := by
  unfold Monitor.would_coalesce at h
  split at h
  · cases h
  rename_i hp
  constructor
  · split at h
    · rename_i queued hq
      obtain ⟨htouch, after, before, he, hafter⟩ := List.find?_eq_some_iff_append.mp hq
      have hkey := beq_iff_eq.mp h
      simp only [Monitor.dedup_key, Prod.mk.injEq] at hkey
      obtain ⟨hs, hl, ht, hm⟩ := hkey
      refine ⟨before.reverse, queued, after.reverse, ?_, hs, hl, kind_ext ht hm, ?_⟩
      · rw [← List.reverse_reverse m.events, he]
        simp
      · intro change hc hscope
        have := hafter change (List.mem_reverse.mp hc)
        exact change_touches_false (by simpa using this) hscope
    · cases h
  · intro cookie half hhalf hlive loc hloc
    by_contra hab
    apply hp
    unfold Monitor.pending_blocks
    rw [List.any_eq_true]
    refine ⟨((scope, cookie), half), mem_scope_halves.mpr ⟨hhalf, rfl⟩, ?_⟩
    rw [Bool.and_eq_true, List.any_eq_true]
    exact ⟨hlive, loc, hloc, locations_touch_iff.mpr hab⟩

/-- A delivery that passed the interest and queued nothing, or a `Rescan` that
    queued nothing. -/
inductive Coalesced (m : Monitor) (scope : ScopeId) (location : Location) : ChangeKind → Prop where
  | emit {kind evidence is_dir} :
      (Monitor.wanted (m.scope_interest scope) kind || evidence.admits (m.scope_interest scope))
        = true →
      (m.emit scope location kind evidence is_dir).2 = none → Coalesced m scope location kind
  | mint : (m.mint_rescan scope location).2 = none → Coalesced m scope location .rescan

/-- What is not queued though asked for coalesces. -/
theorem Coalesced.would (h : Coalesced m scope location kind) :
    m.would_coalesce scope location kind = true := by
  by_contra hno
  cases h with
  | emit hw h =>
    unfold Monitor.emit at h
    rw [if_neg (by cases hi : Monitor.wanted (m.scope_interest scope) kind <;> simp_all),
      if_neg hno] at h
    cases h
  | mint h =>
    have hno' : ¬ (m.bump_epoch scope).would_coalesce scope location .rescan = true := by
      rwa [@would_coalesce_congr m (m.bump_epoch scope) rfl rfl rfl]
    unfold Monitor.mint_rescan at h
    rw [if_neg hno] at h
    unfold Monitor.emit at h
    rw [if_neg (by simp [Monitor.wanted]), if_neg hno'] at h
    cases h

/-! ### Consumers -/

/-- A consumer that keeps a view up to date.  Changes of separate scopes or of
    sibling subtrees may be applied in either order. -/
structure Consumer (View : Type*) where
  apply : ScopeId → Location → ChangeKind → View → View
  siblings : ∀ scope location kind scope' location' kind' view,
    (scope = scope' → Unrelated location kind location' kind') →
      apply scope location kind (apply scope' location' kind' view) =
        apply scope' location' kind' (apply scope location kind view)

namespace Consumer

variable {View : Type*} (consumer : Consumer View)

/-- The view after a sequence of changes. -/
def drain (view : View) (changes : List Change) : View :=
  changes.foldl (fun view change => consumer.apply change.scope change.location change.kind view)
    view

@[simp] theorem drain_nil (view : View) : consumer.drain view [] = view := rfl

theorem drain_append (view : View) (l l' : List Change) :
    consumer.drain view (l ++ l') = consumer.drain (consumer.drain view l) l' :=
  List.foldl_append

theorem drain_cons (view : View) (change : Change) (l : List Change) :
    consumer.drain view (change :: l) =
      consumer.drain (consumer.apply change.scope change.location change.kind view) l := rfl

/-- A change made twice says nothing new. -/
def Idempotent : Prop :=
  ∀ scope location kind view, consumer.apply scope location kind
    (consumer.apply scope location kind view) = consumer.apply scope location kind view

/-- A change may be applied before a sequence unrelated to it. -/
theorem drain_past (view : View) {l : List Change}
    (h : ∀ change ∈ l, change.scope = scope →
      Unrelated change.location change.kind location kind) :
    consumer.apply scope location kind (consumer.drain view l) =
      consumer.drain (consumer.apply scope location kind view) l := by
  induction l generalizing view with
  | nil => rfl
  | cons change l ih =>
    have hc : consumer.apply change.scope change.location change.kind
        (consumer.apply scope location kind view) = _ :=
      consumer.siblings _ _ _ _ _ _ view (h change List.mem_cons_self)
    rw [drain_cons, drain_cons, hc]
    exact ih _ fun change hm => h change (List.mem_cons_of_mem _ hm)

/-- Behind its survivor a change adds nothing. -/
theorem drain_coalesced (ha : consumer.Idempotent) (view : View)
    (hm : Survives m scope location kind) :
    consumer.apply scope location kind (consumer.drain view m.events) =
      consumer.drain view m.events := by
  obtain ⟨before, queued, after, he, rfl, rfl, rfl, hafter⟩ := hm.queued
  rw [he, drain_append, drain_cons, consumer.drain_past _ hafter, ha]

end Consumer

/-! ### Path trees -/

/-- The sets of locations each scope's consumer holds. -/
abbrev Trees := ScopeId → Set Location

open Classical in
/-- One change of a scope's tree, `disk` being what a re-read finds.  A move of
    nothing, or within one hierarchy, is only the arrival. -/
noncomputable def edit (disk : Set Location) (location : Location) : ChangeKind →
    Set Location → Set Location
  | .created => insert location
  | .modified => id
  | .removed => delete location
  | .moved source => fun tree =>
    if Apart source location ∧ source ∈ tree then relocate source location tree
    else insert location tree
  | .rescan => reread disk location

/-- The keys a change of a tree is about. -/
def footprint (location : Location) (kind : ChangeKind) : Set Location :=
  {k | ∃ a ∈ Monitor.touched location kind, a <+: k}

theorem footprint_disjoint {location' : Location} {kind' : ChangeKind}
    (h : Unrelated location kind location' kind') :
    Disjoint (footprint location kind) (footprint location' kind') := by
  rw [Set.disjoint_left]
  rintro k ⟨a, ha, hk⟩ ⟨b, hb, hk'⟩
  exact (h a ha b hb).not_mem hk hk'

theorem local_edit {disk : Set Location} :
    Local (footprint location kind) (edit disk location kind) := by
  have own : below location ⊆ footprint location kind := fun k hk =>
    ⟨location, List.mem_cons_self, hk⟩
  cases kind with
  | created => exact local_insert.mono own
  | modified => exact ⟨fun _ _ _ => Iff.rfl, fun _ _ h => h⟩
  | removed => exact local_delete.mono own
  | rescan => exact local_reread.mono own
  | moved source =>
    have both : below source ∪ below location ⊆ footprint location (.moved source) := by
      rintro k (hk | hk)
      · exact ⟨source, by simp [Monitor.touched, ChangeKind.moved_from], hk⟩
      · exact own hk
    have hmove := (local_relocate (a := source) (b := location)).mono both
    have hinsert := (local_insert (p := location)).mono own
    constructor
    · intro v k hk
      unfold edit
      dsimp only
      split
      · exact hmove.outside v k hk
      · exact hinsert.outside v k hk
    · intro v w h k hk
      have hsource : source ∈ v ↔ source ∈ w := h source (both (.inl List.prefix_rfl))
      unfold edit
      dsimp only
      rw [hsource]
      split
      · exact hmove.inside v w h k hk
      · exact hinsert.inside v w h k hk

theorem edit_again {disk tree : Set Location} :
    edit disk location kind (edit disk location kind tree) = edit disk location kind tree := by
  cases kind with
  | created => exact Set.insert_eq_of_mem (Set.mem_insert _ _)
  | modified => rfl
  | removed =>
    ext k
    simp [edit, delete]
  | rescan =>
    ext k
    simp only [edit, reread, Set.mem_union, Set.mem_sdiff, Set.mem_inter_iff]
    tauto
  | moved source =>
    unfold edit
    dsimp only
    by_cases h : Apart source location ∧ source ∈ tree
    · -- the source has gone, and the destination stands
      have hgone : source ∉ relocate source location tree := by
        rintro (⟨⟨-, hs⟩, -⟩ | hs)
        · exact hs List.prefix_rfl
        · exact h.1.2 (transplant_below hs)
      have hstands : location ∈ relocate source location tree :=
        .inr ⟨[], by simp, by simpa using h.2⟩
      rw [if_pos h, if_neg fun hn => hgone hn.2]
      exact Set.insert_eq_of_mem hstands
    · have h' : ¬ (Apart source location ∧ source ∈ insert location tree) := by
        rintro ⟨ha, hs⟩
        rcases Set.mem_insert_iff.mp hs with he | hs
        · exact ha.1 (he ▸ List.prefix_rfl)
        · exact h ⟨ha, hs⟩
      rw [if_neg h, if_neg h']
      exact Set.insert_eq_of_mem (Set.mem_insert _ _)

/-- A consumer that keeps one tree a scope, by edits of the places a change is about. -/
def Consumer.of_edits (edits : ScopeId → Location → ChangeKind → Set Location → Set Location)
    (hlocal : ∀ scope location kind, Local (footprint location kind) (edits scope location kind)) :
    Consumer Trees where
  apply scope location kind view :=
    Function.update view scope (edits scope location kind (view scope))
  siblings := by
    intro scope location kind scope' location' kind' view h
    by_cases hs : scope = scope'
    · subst hs
      simp only [Function.update_self, Function.update_idem]
      rw [(hlocal _ _ _).comm (hlocal _ _ _) (footprint_disjoint (h rfl))]
    · rw [Function.update_of_ne hs, Function.update_of_ne (Ne.symm hs), Function.update_comm hs]

noncomputable def path_trees (disk : Trees) : Consumer Trees :=
  .of_edits (fun scope => edit (disk scope)) fun _ _ _ => local_edit

theorem path_trees_idempotent (disk : Trees) : (path_trees disk).Idempotent := by
  intro scope location kind view
  show Function.update (Function.update view scope _) scope (edit (disk scope) location kind
    (Function.update view scope _ scope)) = _
  rw [Function.update_self, edit_again, Function.update_idem]
  rfl

/-- One change as a `Moved` reads to a consumer that looks no further: what is below the
    source goes, and stands below the destination in place of what was there. -/
def plain_edit (disk : Set Location) (location : Location) : ChangeKind →
    Set Location → Set Location
  | .created => insert location
  | .modified => id
  | .removed => delete location
  | .moved source => relocate source location
  | .rescan => reread disk location

theorem local_plain_edit {disk : Set Location} :
    Local (footprint location kind) (plain_edit disk location kind) := by
  cases kind with
  | moved source =>
    apply (local_relocate (a := source) (b := location)).mono
    rintro k (hk | hk)
    · exact ⟨source, by simp [Monitor.touched, ChangeKind.moved_from], hk⟩
    · exact ⟨location, List.mem_cons_self, hk⟩
  | created => exact @local_edit location .created disk
  | modified => exact @local_edit location .modified disk
  | removed => exact @local_edit location .removed disk
  | rescan => exact @local_edit location .rescan disk

def plain_trees (disk : Trees) : Consumer Trees :=
  .of_edits (fun scope => plain_edit (disk scope)) fun _ _ _ => local_plain_edit

/-! ### Coalescing hides nothing -/

/-- Whatever was drained before and is queued behind, a change appended to the
    queue leaves the consumer with the view it has without it. -/
def Unmissed {View : Type*} (consumer : Consumer View) (m : Monitor) (scope : ScopeId)
    (location : Location) (kind : ChangeKind) : Prop :=
  ∀ (view : View) (delivered later : List Change) (change : Change),
    change.scope = scope → change.location = location → change.kind = kind →
      consumer.drain view (delivered ++ m.events ++ change :: later) =
        consumer.drain view (delivered ++ m.events ++ later)

/-- No consumer for which a change made twice says nothing new misses the change. -/
def Unseen.{u} (m : Monitor) (scope : ScopeId) (location : Location) (kind : ChangeKind) : Prop :=
  ∀ (View : Type u) (consumer : Consumer View), consumer.Idempotent →
    Unmissed consumer m scope location kind

theorem Survives.unseen (h : Survives m scope location kind) : Unseen m scope location kind := by
  intro View consumer ha view delivered later change hs hl hk
  subst hs hl hk
  rw [Consumer.drain_append, Consumer.drain_append, Consumer.drain_append, Consumer.drain_append,
    Consumer.drain_cons, consumer.drain_coalesced ha _ h]

/-- The stream of a run passes through every moment of every call: what was
    delivered, what then stands in the queue, and what is queued later. -/
theorem Session.queued_through {caps : Capabilities} {inputs rest : List Input} {input : Input}
    {c : Moment} (hd : (Session.new caps).Drives false (inputs ++ input :: rest))
    (hp : input ≠ .poll_event)
    (before : Trace (((Session.new caps).run inputs).during false
      ((Session.new caps).run inputs).m input) c)
    (after : Trace c ((((Session.new caps).run inputs).step input).during false
      ((Session.new caps).run inputs).m input)) :
    ∃ later, (Session.new caps).queued (inputs ++ input :: rest) =
      (Session.new caps).delivered inputs ++ c.m.events ++ later := by
  obtain ⟨hd, ha, hrest⟩ := (Session.drives_append _ _ _).mp hd
  have hv := Session.run_valid hd
  have hc := Trace.valid hv.during before
  have hcall : c.g.call ≠ some .poll_event := by
    rw [Trace.call before]
    simpa [Session.during] using hp
  obtain ⟨fresh, he, -⟩ : Emits ⟨1, Nat.one_pos⟩ c.m _ := Trace.emits hc hcall after
  obtain ⟨fresh', he', -⟩ := Session.run_stream (Session.step_valid hv ha) hrest
  have hnone : (((Session.new caps).run inputs).m.step input).2.polled = [] := by
    cases input with
    | poll_event => exact absurd rfl hp
    | _ => rfl
  refine ⟨fresh ++ fresh', ?_⟩
  unfold Session.queued at he' ⊢
  rw [Session.delivered_append, Session.run_append, Session.delivered, hnone, List.nil_append,
    Session.run_cons, List.append_assoc, he']
  have he : (((Session.new caps).run inputs).step input).m.events = c.m.events ++ fresh := he
  rw [he]
  simp

/-- A change that coalesces has a survivor in the queue and is not missed by any
    consumer for which a change made twice says nothing new, in every state and at
    every moment of every run. -/
theorem coalescing_hides_nothing.{u} :
    (∀ (m : Monitor) (scope : ScopeId) (location : Location) (kind : ChangeKind),
      Coalesced m scope location kind →
        Survives m scope location kind ∧ Unseen.{u} m scope location kind) ∧
    ∀ (caps : Capabilities) (inputs rest : List Input) (input : Input) (c : Moment),
      (Session.new caps).Drives false (inputs ++ input :: rest) → input ≠ .poll_event →
      Trace (((Session.new caps).run inputs).during false
        ((Session.new caps).run inputs).m input) c →
      Trace c ((((Session.new caps).run inputs).step input).during false
        ((Session.new caps).run inputs).m input) →
      ∃ later, (Session.new caps).queued (inputs ++ input :: rest) =
        (Session.new caps).delivered inputs ++ c.m.events ++ later := by
  constructor
  · intro m scope location kind h
    have hs := Survives.of_coalesce h.would
    exact ⟨hs, hs.unseen⟩
  · intro caps inputs rest input c hd hp before after
    exact Session.queued_through hd hp before after

/-- A loss reported twice: the second `Rescan` folds into the first. -/
theorem coalescing_hides_reported :
    Survives ((Session.new ⟨false, false⟩).run
        (widening ++ [.report_loss ⟨1, Nat.one_pos⟩])).m ⟨1, Nat.one_pos⟩ [] .rescan ∧
      Unseen.{0} ((Session.new ⟨false, false⟩).run
        (widening ++ [.report_loss ⟨1, Nat.one_pos⟩])).m ⟨1, Nat.one_pos⟩ [] .rescan :=
  coalescing_hides_nothing.1 _ _ _ _ (.mint (by decide))

/-! ### A file that is renamed twice -/

def file_record (kind : RecordKind) (name : Segment) : OsRecord where
  watch := ⟨1, Nat.one_pos⟩
  kind := kind
  evidence := .of kind
  target := some [name]
  is_dir := some false
  cookie := some ⟨1, Nat.one_pos⟩
  node := none

/-- `a` is renamed to `b`, and so is the `a` that came after it. -/
def renamed_again : List Input :=
  [.register_root ⟨1, Nat.one_pos⟩ Interest.all,
    .on_os_record (file_record .movedFrom "a") ⟨0⟩, .on_os_record (file_record .movedTo "b") ⟨0⟩,
    .on_os_record (file_record .movedFrom "a") ⟨0⟩]

/-- The state in which the second destination asks for its `Moved`. -/
def renaming_again : Monitor :=
  (((Session.new ⟨false, false⟩).run renamed_again).m.take_half
    (⟨1, Nat.one_pos⟩, ⟨1, Nat.one_pos⟩)).1

/-- The second `Moved` coalesces into the first, and the call queues nothing else.  A
    consumer that applied it too would empty the destination it had just filled. -/
theorem renamed_again_missed :
    (Session.new ⟨false, false⟩).Drives false
      (renamed_again ++ [.on_os_record (file_record .movedTo "b") ⟨0⟩]) ∧
    ((Session.new ⟨false, false⟩).run
      (renamed_again ++ [.on_os_record (file_record .movedTo "b") ⟨0⟩])).m.events =
        renaming_again.events ∧
    Coalesced renaming_again ⟨1, Nat.one_pos⟩ ["b"] (.moved ["a"]) ∧
    ¬ Unmissed (plain_trees fun _ => ∅) renaming_again ⟨1, Nat.one_pos⟩ ["b"] (.moved ["a"]) := by
  refine ⟨⟨trivial, trivial, trivial, trivial, trivial, trivial⟩, by decide +kernel,
    ?_, ?_⟩
  · have hnone : (renaming_again.emit ⟨1, Nat.one_pos⟩ ["b"] (.moved ["a"]) (.of .movedTo)
        (some false)).2 = none := by
      decide +kernel
    exact .emit (by decide +kernel) hnone
  intro h
  have hevents : renaming_again.events.map (fun c => (c.scope, c.location, c.kind)) =
      [(⟨1, Nat.one_pos⟩, ["b"], .moved ["a"])] := by
    decide +kernel
  obtain ⟨c, hc, hshape⟩ := List.map_eq_singleton_iff.mp hevents
  obtain ⟨hs, hl, hk⟩ := Prod.mk.inj hshape |>.imp_right Prod.mk.inj
  have hsame := congrFun (h (fun _ => {["a"]}) [] [] c hs hl hk) c.scope
  have htwice : relocate ["a"] ["b"] (relocate ["a"] ["b"] {["a"]}) = relocate ["a"] ["b"] {["a"]} := by
    simpa [Consumer.drain, plain_trees, Consumer.of_edits, plain_edit, hc, hl, hk] using hsame
  have hstands : (["b"] : Location) ∈ relocate ["a"] ["b"] ({["a"]} : Set Location) :=
    .inr ⟨[], rfl, rfl⟩
  rw [← htwice] at hstands
  rcases hstands with ⟨-, hb⟩ | ⟨t, ht, hin⟩
  · exact hb List.prefix_rfl
  · -- the source went with the first
    rcases hin with ⟨⟨-, ha⟩, -⟩ | hin
    · exact ha (List.prefix_append _ t)
    · have hb := transplant_below hin
      exact absurd hb (by simp)

end Proto
