import Tributaries.Proto.Outcomes

/-! # What a report is worth

  A consumer follows a record's outcome, so the outcome has to say what the
  tree did: a re-key is reported, with the place the subtree left, and
  nothing else that is reported or not moves anything.  The place is the
  half's way to its source.  It is right as long as no rename resolved in
  the meantime wrote that way anew.
-/

open Std Collections SlotForest Forest

namespace Proto

variable {m m' : Monitor} {g : Ghost} {rec : OsRecord} {now : Instant}

/-- A watch found alive fills a slot after the call that it did not fill before. -/
def Rekeys (m m' : Monitor) : Prop :=
  ∃ (x : WatchId) (slot : WatchId × Segment), m.nodes[x]? ≠ none ∧
    m'.child_index[slot]? = some x ∧ m.child_index[slot]? ≠ some x

/-- The call took a watch from the place it reports to the record's slot. -/
structure Moved (m m' : Monitor) (rec : OsRecord) (from_parent : WatchId) (source : Location)
    (src : WatchId) : Prop where
  found : m.location_of_checked src = some source
  parent : m.parent_link src = some from_parent
  anchor : m'.is_watched from_parent = true
  lands : ∃ name, rec.name = some name ∧ m'.slot_of src = some (rec.watch, name) ∧
    m'.child_index[(rec.watch, name)]? = some src
  others : ∀ (x : WatchId) (n n' : WatchNode), x ≠ src → m.nodes[x]? = some n →
    m'.nodes[x]? = some n' → n'.parent = n.parent ∧ n'.name = n.name
  subtree : ∀ x, m.is_descendant x src = true → m'.is_watched x = true →
    ∃ suffix, m.location_of_checked x = some (source ++ suffix) ∧
      m'.location_of_checked x = some (m.record_location rec ++ suffix)

/-- The outcome reports exactly what the tree did. -/
structure Reports (m m' : Monitor) (rec : OsRecord) (out : RecordOutcome) : Prop where
  told : (∃ watch source, out = .reparented watch source) ↔ Rekeys m m'
  moved : ∀ watch source, out = .reparented watch source → ∃ src, Moved m m' rec watch source src
  still : Silent out → ∀ (x : WatchId) (n n' : WatchNode), m.nodes[x]? = some n →
    m'.nodes[x]? = some n' → n'.parent = n.parent ∧ n'.name = n.name

/-- The half of a record that is about to re-key still has the one segment it was
    parked with as the way to its source. -/
def Spelled (m : Monitor) (rec : OsRecord) (now : Instant) : Prop :=
  ∀ half src name, Carries m rec now half src name → half.source.length = 1

/-! ### The half of a record -/

theorem Carries.unique {half half' : PendingMove} {src src' : WatchId} {name name' : Segment}
    (h : Carries m rec now half src name) (h' : Carries m rec now half' src' name') :
    half' = half := by
  obtain ⟨-, scope, hs, -, ⟨cookie, hc, hp, -⟩, -⟩ := h
  obtain ⟨-, scope', hs', -, ⟨cookie', hc', hp', -⟩, -⟩ := h'
  rw [hs] at hs'
  cases hs'
  rw [hc] at hc'
  cases hc'
  rw [hp] at hp'
  cases hp'
  rfl

/-- A live source of a half stands in no slot. -/
theorem held_fills_none (h : Valid ⟨m, g⟩) (hw : g.walk = none) {key : PendingKey}
    {half : PendingMove} {src : WatchId} (hk : m.pending_moves[key]? = some half)
    (hs : half.held = some src) (slot : WatchId × Segment) : m.child_index[slot]? ≠ some src := by
  intro hi
  have hslot := slot_of_index (h.toInv.sound hw) hi
  obtain ⟨n, hn, -⟩ := Monitor.slot_of_eq_some.mp hslot
  obtain ⟨hmem, -⟩ := h.holds.half_held key half src _ hk hs (scope_of_node hn)
  obtain ⟨slot', hslot', hne⟩ := h.holds.held_off src hmem
  rw [hslot] at hslot'
  obtain rfl := Option.some.inj hslot'
  exact hne hi

/-- A node below a live node is live. -/
theorem above_live {a x : WatchId} (ha : Above m.shape.up a x)
    (hl : m.nodes[a]? ≠ none) : m.nodes[x]? ≠ none := by
  rcases ha.cases_parent with rfl | ⟨q, hq, -⟩
  · exact hl
  · intro hdead
    rw [Monitor.up_of, hdead] at hq
    cases hq

/-- The record's slot is where its name says. -/
theorem record_location_name {name : Segment} (hname : rec.name = some name) :
    m.record_location rec = m.location_of rec.watch ++ [name] := by
  unfold OsRecord.name at hname
  unfold Monitor.record_location
  cases ht : rec.target with
  | none =>
    rw [ht] at hname
    cases hname
  | some target =>
    rw [ht] at hname
    dsimp only at hname ⊢
    split at hname
    · rename_i hlen
      obtain ⟨a, rfl⟩ := List.length_eq_one_iff.mp hlen
      obtain rfl := Option.some.inj hname
      rfl
    · cases hname

/-! ### A re-key and its report -/

/-- A half with one segment on its way says where its source stands. -/
theorem pending_from_spelled (h : m.shape.Sound ∅) {half : PendingMove} {src : WatchId}
    {name : Segment} (hslot : m.slot_of src = some (half.from_parent, name))
    (hlast : half.source.getLast? = some name) :
    m.pending_from half = m.location_of src ↔ half.source.length = 1 := by
  rw [location_step h hslot, Monitor.pending_from, Location.join, List.append_cancel_left_eq]
  constructor
  · intro he
    rw [he]
    rfl
  · intro hlen
    obtain ⟨a, ha⟩ := List.length_eq_one_iff.mp hlen
    rw [ha] at hlast ⊢
    obtain rfl := Option.some.inj hlast
    rfl

/-- A re-key takes the source to the record's slot, and its subtree along. -/
theorem Rekeyed.moved {src from_parent : WatchId} {name old : Segment}
    (hr : Rekeyed m m' src rec.watch name) (h : m.Integrity) (h' : m'.Integrity)
    (hsound : m.shape.Sound ∅) (hsound' : m'.shape.Sound ∅) (hmint : Minted m)
    (hname : rec.name = some name) (hwatch : m.nodes[rec.watch]? ≠ none)
    (hslot : m.slot_of src = some (from_parent, old)) :
    Moved m m' rec from_parent (m.location_of src) src := by
  obtain ⟨n, hn, hpar, -⟩ := Monitor.slot_of_eq_some.mp hslot
  have hlive : m.nodes[src]? ≠ none := by simp [hn]
  refine ⟨h.located src hlive, ?_, hr.left _ hslot, ⟨name, hname, hr.lands, hr.fills⟩, ?_, ?_⟩
  · simp [Monitor.parent_link, hn, hpar]
  · intro x n n' hne hn hn'
    obtain ⟨q, hq, hp, hnm⟩ := hr.stays x _ (Monitor.place_of hn') (hmint x (by simp [hn])) hne
    rw [Monitor.place_of hn] at hq
    cases hq
    exact ⟨hp, hnm⟩
  · intro x hx hx'
    have ha := (Monitor.is_descendant_iff hsound).mp hx
    have hl := above_live ha hlive
    obtain ⟨n', hn'⟩ := contains_iff.mp hx'
    have hl' : m'.nodes[x]? ≠ none := by simp [hn']
    obtain ⟨suffix, h₁, h₂⟩ := hr.location_below hmint hsound hsound' hl hl' ha
    refine ⟨suffix, ?_, ?_⟩
    · rw [h.located x hl, h₁]
    · rw [h'.located x hl', h₂, hr.location_new hmint hsound hsound' hwatch,
        record_location_name hname]

/-- A call that moves nothing and says so reports exactly what the tree did. -/
theorem Unmoved.reports {out : RecordOutcome} (hu : Unmoved m m') (hmint : Minted m)
    (hsil : Silent out) : Reports m m' rec out := by
  constructor
  · constructor
    · intro ⟨watch, source, he⟩
      exact absurd he (hsil watch source)
    · intro ⟨x, slot, hx, hfills, hnew⟩
      exact absurd (hu.keyed slot x hfills (hmint x hx)) hnew
  · intro watch source he
    exact absurd he (hsil watch source)
  · intro _ x n n' hn hn'
    exact hu.node (hmint x (by simp [hn])) hn hn'

/-! ### Every run -/

/-- A record of a valid session reports exactly what the tree did, if and only if the
    half of what it re-keys was not written anew. -/
theorem reports_iff (h : Valid ⟨m, g⟩) (hw : g.walk = none) (ht : g.transit = none)
    (haddr : Addressed ⟨m, g⟩) (hsound' : (m.on_os_record rec now).1.shape.Sound ∅)
    (h' : (m.on_os_record rec now).1.Integrity) :
    Reports m (m.on_os_record rec now).1 rec (m.on_os_record rec now).2 ↔ Spelled m rec now := by
  have hsound := h.toInv.sound hw
  have hmint : Minted m := h.minted
  have hsettle : Placed (m.ingest_record rec now).1 (m.on_os_record rec now).1 :=
    (settle_bridges_calm (k := none)).placed
  have hsame : (m.on_os_record rec now).2 = (m.ingest_record rec now).2 := rfl
  rw [hsame]
  rcases ingest_record_outcome rec now h hw ht haddr with
    ⟨half, src, name, hcar, hout, hr⟩ | ⟨hno, hu, hsil⟩
  · replace hr := hr.placed hsettle
    rw [hout]
    obtain ⟨-, scope, hs, -, ⟨cookie, -, hhalf, -, hheld, hname⟩, htakes⟩ := id hcar
    have hlive := htakes.1
    simp only [Monitor.can_reparent, Bool.and_eq_true] at hlive
    obtain ⟨n, hn⟩ := contains_iff.mp hlive.1.1.1
    obtain ⟨nw, hnw⟩ := contains_iff.mp hlive.1.1.2
    obtain ⟨old, hslot, hlast, -⟩ := haddr.anchor hsound hhalf hheld hlive.1.1.1
    have hmoved := hr.moved (h.toInv.integrity hw ht) h' hsound hsound' hmint hname
      (by simp [hnw]) hslot
    have hspell := pending_from_spelled hsound hslot hlast
    constructor
    · intro hrep half' src' name' hcar'
      rw [hcar.unique hcar']
      obtain ⟨src', hsaid⟩ := hrep.moved _ _ rfl
      obtain ⟨name', hname', -, hfills⟩ := hsaid.lands
      -- the slot says which watch the report is about
      rw [hname] at hname'
      cases hname'
      rw [hr.fills] at hfills
      cases hfills
      exact hspell.mp (Option.some.inj (hsaid.found.symm.trans hmoved.found))
    · intro hsp
      rw [hspell.mpr (hsp half src name hcar)]
      constructor
      · constructor
        · intro _
          exact ⟨src, _, by simp [hn], hr.fills, held_fills_none h hw hhalf hheld _⟩
        · intro _
          exact ⟨_, _, rfl⟩
      · intro watch source he
        cases he
        exact ⟨src, hmoved⟩
      · intro hsil
        exact absurd rfl (hsil _ _)
  · constructor
    · intro _ half src name hcar
      exact absurd hcar (hno half src name)
    · intro _
      exact (hu.trans (.of_placed hsettle)).reports hmint hsil

/-- In every state of every run, a record reports exactly what the tree did if and only
    if the half of what it re-keys was not written anew. -/
theorem run_reports {caps : Capabilities} {inputs : List Input}
    (hd : (Session.new caps).Drives false inputs) (rec : OsRecord) (now : Instant) :
    Reports ((Session.new caps).run inputs).m
        (((Session.new caps).run inputs).m.on_os_record rec now).1 rec
        (((Session.new caps).run inputs).m.on_os_record rec now).2 ↔
      Spelled ((Session.new caps).run inputs).m rec now := by
  have hv := Session.run_valid hd
  have hv' : Valid ((((Session.new caps).run inputs).step (.on_os_record rec now)).moment false) :=
    Session.step_valid hv trivial
  exact reports_iff hv rfl rfl (run_addressed hd) (hv'.toInv.sound rfl)
    (hv'.toInv.integrity rfl rfl)

/-! ### A way written anew -/

/-- A record about a directory in a slot. -/
def dir_record (watch : WatchId) (kind : RecordKind) (name : Segment)
    (cookie : Option MoveCookie) : OsRecord where
  watch := watch
  kind := kind
  evidence := .of kind
  target := some [name]
  is_dir := some true
  cookie := cookie
  node := none

/-- `a/c` and then `a` are taken up, and another `a` appears. -/
def taken_up : List Input :=
  [.register_root ⟨1, Nat.one_pos⟩ Interest.all,
    .on_os_record (dir_record ⟨1, Nat.one_pos⟩ .created "a" none) ⟨0⟩,
    .on_os_record (dir_record ⟨2, Nat.two_pos⟩ .created "c" none) ⟨0⟩,
    .on_os_record (dir_record ⟨2, Nat.two_pos⟩ .movedFrom "c" (some ⟨2, Nat.two_pos⟩)) ⟨0⟩,
    .on_os_record (dir_record ⟨1, Nat.one_pos⟩ .movedFrom "a" (some ⟨1, Nat.one_pos⟩)) ⟨0⟩,
    .on_os_record (dir_record ⟨1, Nat.one_pos⟩ .created "a" none) ⟨0⟩]

/-- The first `a` lands at `a/x`. -/
def outer_landing : OsRecord :=
  dir_record ⟨4, by decide⟩ .movedTo "x" (some ⟨1, Nat.one_pos⟩)

/-- `a/x/c` lands at `z`. -/
def inner_landing : OsRecord :=
  dir_record ⟨1, Nat.one_pos⟩ .movedTo "z" (some ⟨2, Nat.two_pos⟩)

/-- The halves of a run that takes sources up hold the way they were parked with. -/
theorem outer_landing_reports :
    Reports ((Session.new ⟨false, false⟩).run taken_up).m
      (((Session.new ⟨false, false⟩).run taken_up).m.on_os_record outer_landing ⟨0⟩).1
      outer_landing
      (((Session.new ⟨false, false⟩).run taken_up).m.on_os_record outer_landing ⟨0⟩).2 := by
  have hd : (Session.new ⟨false, false⟩).Drives false taken_up :=
    ⟨trivial, trivial, trivial, trivial, trivial, trivial, trivial⟩
  apply (run_reports hd outer_landing ⟨0⟩).mpr
  intro half src name ⟨_, scope, hs, _, ⟨cookie, hc, hp, _⟩, _⟩
  have hscope : ((Session.new ⟨false, false⟩).run taken_up).m.scope_of outer_landing.watch =
      some ⟨1, by decide⟩ := by decide +kernel
  obtain rfl := Option.some.inj (hscope.symm.trans hs)
  obtain rfl : (⟨1, by decide⟩ : MoveCookie) = cookie := Option.some.inj hc
  have hlen : ((((Session.new ⟨false, false⟩).run taken_up).m.pending_moves[((⟨1, by decide⟩ :
      ScopeId), (⟨1, by decide⟩ : MoveCookie))]?).all fun half => half.source.length == 1) =
        true := by decide +kernel
  rw [hp] at hlen
  simpa using hlen

/-- The outer rename wrote the way of the inner half anew from its own source, though
    its anchor moved along: the inner one reports a place where nothing stood. -/
theorem inner_landing_misreports :
    ¬ Reports ((Session.new ⟨false, false⟩).run
        (taken_up ++ [.on_os_record outer_landing ⟨0⟩])).m
      (((Session.new ⟨false, false⟩).run
        (taken_up ++ [.on_os_record outer_landing ⟨0⟩])).m.on_os_record inner_landing ⟨0⟩).1
      inner_landing
      (((Session.new ⟨false, false⟩).run
        (taken_up ++ [.on_os_record outer_landing ⟨0⟩])).m.on_os_record inner_landing ⟨0⟩).2 := by
  intro h
  obtain ⟨src, hsrc⟩ := h.moved ⟨2, by decide⟩ ["a", "x", "x", "c"] (by decide +kernel)
  obtain ⟨name, hname, -, hfills⟩ := hsrc.lands
  have hz : (some "z" : Option Segment) = some name := hname
  cases hz
  have hthree : (((Session.new ⟨false, false⟩).run
      (taken_up ++ [.on_os_record outer_landing ⟨0⟩])).m.on_os_record inner_landing
        ⟨0⟩).1.child_index[(inner_landing.watch, ("z" : Segment))]? = some ⟨3, by decide⟩ := by
    decide +kernel
  obtain rfl := Option.some.inj (hfills.symm.trans hthree)
  have hfound : ((Session.new ⟨false, false⟩).run
      (taken_up ++ [.on_os_record outer_landing ⟨0⟩])).m.location_of_checked ⟨3, by decide⟩ =
        some ["a", "x", "c"] := by decide +kernel
  have hsame := hsrc.found.symm.trans hfound
  simp at hsame

end Proto
