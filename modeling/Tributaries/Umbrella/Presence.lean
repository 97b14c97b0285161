import Tributaries.Umbrella.Burst

/-! # Coalescing and the final picture

  A consumer that reads `Created` and `Modified` as present and `Removed`
  as absent ends, once a run of the coalescer has drained, with the
  presence the admitted changes describe, as long as no burst is
  annihilated at a key the consumer holds.
-/

open Std Collections

namespace Umbrella

variable {C V : Type} [Ord C] [TransOrd C] [LawfulEqOrd C] [DecidableEq C]

/-! ### Runs of a coalescer -/

/-- One call of the owner. -/
inductive Op (C V : Type) where
  | admit_event (ev : Event C V) (now far : Instant)
  | drain_ready (now : Instant)
  | flush_all
  | set_policy (sub : Subscription) (policy : Debounce)
  | flush_subscription (sub : Subscription) (now : Instant)
  | drop_subscription (sub : Subscription)
  | forget_subscription (sub : Subscription)

/-- The clock reading a call carries. -/
def Op.now : Op C V → Option Instant
  | .admit_event _ now _ | .drain_ready now | .flush_subscription _ now => some now
  | _ => none

/-- What a run shows: the changes it took on and the events it handed out. -/
inductive Obs (C V : Type) where
  | accepted (ev : Event C V)
  | emitted (ev : Event C V)

def Obs.event : Obs C V → Event C V
  | .accepted ev | .emitted ev => ev

/-- One call.  An admission that overflowed takes nothing on; `none` is a
    panic. -/
def Coalescer.step (c : Coalescer C V) : Op C V → Option (Coalescer C V × List (Obs C V))
  | .admit_event ev now far =>
    match c.admit_event ev now far with
    | (none, c') => some (c', [.accepted ev])
    | (some _, c') => some (c', [])
  | .drain_ready now => (c.drain_ready now).map fun r => (r.2, r.1.map .emitted)
  | .flush_all => some (c.flush_all.2, c.flush_all.1.map .emitted)
  | .set_policy sub policy => some (c.set_policy sub policy, [])
  | .flush_subscription sub now => some (c.flush_subscription sub now, [])
  | .drop_subscription sub => some (c.drop_subscription sub, [])
  | .forget_subscription sub => some (c.forget_subscription sub, [])

/-- A run of calls, with what it shows. -/
def Coalescer.run (c : Coalescer C V) : List (Op C V) → Option (Coalescer C V × List (Obs C V))
  | [] => some (c, [])
  | op :: ops =>
    (c.step op).bind fun r => (r.1.run ops).map fun r' => (r'.1, r.2 ++ r'.2)

/-- The clock readings of the calls do not decrease. -/
def Timed : Instant → List (Op C V) → Prop
  | _, [] => True
  | last, op :: ops => last ≤ op.now.getD last ∧ Timed (op.now.getD last) ops

/-- The calls the picture of one subscription is about: its events are
    lifecycle changes, its policy stands, and nothing else is done to it. -/
def Confined (sub : Subscription) : Op C V → Prop
  | .admit_event ev _ _ => ev.subscription = sub → ev.kind.is_lifecycle = true
  | .drain_ready _ | .flush_all => True
  | .set_policy s _ | .flush_subscription s _ | .drop_subscription s | .forget_subscription s =>
    s ≠ sub

/-! ### The two pictures -/

/-- What a kind says of its key. -/
def EventKind.present : EventKind C → Bool
  | .removed => false
  | _ => true

/-- The presence of a slot once some events are read. -/
def told (k : BufKey C) (held : Bool) (events : List (Event C V)) : Bool :=
  events.foldl (fun p e => if e.slot = k then e.kind.present else p) held

def accepted (tr : List (Obs C V)) : List (Event C V) :=
  tr.filterMap fun
    | .accepted ev => some ev
    | .emitted _ => none

def emitted (tr : List (Obs C V)) : List (Event C V) :=
  tr.filterMap fun
    | .accepted _ => none
    | .emitted ev => some ev

/-- A call annihilates the burst of a slot: a `Removed` meets a buffered
    `Created`. -/
def Annihilates (c : Coalescer C V) (k : BufKey C) : Op C V → Prop
  | .admit_event ev _ _ => ev.slot = k ∧ ev.kind = .removed ∧
      ∃ b, c.buffer[k]? = some b ∧ b.event.kind = .created
  | _ => False

/-- Along a run, no burst of a slot is annihilated while the consumer holds
    the key. -/
def Spared (k : BufKey C) (held : Bool) :
    Coalescer C V → List (Obs C V) → List (Op C V) → Prop
  | _, _, [] => True
  | c, tr, op :: ops =>
    (Annihilates c k op → told k held (emitted tr) = false) ∧
      ∀ c' obs, c.step op = some (c', obs) → Spared k held c' (tr ++ obs) ops

/-- Nothing of a subscription is pending. -/
def Coalescer.Idle (c : Coalescer C V) (sub : Subscription) : Prop :=
  (∀ key, c.buffer[((sub, key) : BufKey C)]? = none) ∧
    ∀ r ∈ c.ready, r.2.subscription ≠ sub

/-! ### Reading events -/

section Told

variable {k : BufKey C} {p : Bool} {e ev : Event C V} {l l' : List (Event C V)}

section
omit [Ord C] [TransOrd C] [LawfulEqOrd C]

theorem told_append : told k p (l ++ l') = told k (told k p l) l' := List.foldl_append

theorem told_of_slot (h : e.slot = k) : told k p [e] = e.kind.present := if_pos h

theorem told_absent (h : ∀ e ∈ l, e.slot ≠ k) : told k p l = p := by
  induction l with
  | nil => rfl
  | cons e l ih =>
    have he := h e List.mem_cons_self
    show told k (if e.slot = k then e.kind.present else p) l = p
    rw [if_neg he]
    exact ih fun e he => h e (List.mem_cons_of_mem _ he)

/-- Only the events of a slot are read there. -/
theorem told_filter : told k p (l.filter fun e => e.slot = k) = told k p l := by
  induction l generalizing p with
  | nil => rfl
  | cons e l ih =>
    show _ = told k (if e.slot = k then e.kind.present else p) l
    rw [List.filter_cons]
    split
    · rename_i h
      rw [if_pos (of_decide_eq_true h)]
      show told k (if e.slot = k then e.kind.present else p) _ = _
      rw [if_pos (of_decide_eq_true h), ih]
    · rename_i h
      rw [if_neg (fun he => h (decide_eq_true he)), ih]

end

end Told

section Trace

variable {tr tr' : List (Obs C V)}

section
omit [Ord C] [TransOrd C] [LawfulEqOrd C] [DecidableEq C]

theorem accepted_append : accepted (tr ++ tr') = accepted tr ++ accepted tr' :=
  List.filterMap_append

theorem emitted_append : emitted (tr ++ tr') = emitted tr ++ emitted tr' := List.filterMap_append

theorem accepted_map_emitted (l : List (Event C V)) : accepted (l.map .emitted) = [] := by
  rw [accepted, List.filterMap_map]
  exact List.filterMap_eq_nil_iff.mpr fun _ _ => rfl

theorem emitted_map_emitted (l : List (Event C V)) : emitted (l.map .emitted) = l := by
  rw [emitted, List.filterMap_map]
  exact List.filterMap_some

theorem mem_accepted {e : Event C V} : e ∈ accepted tr ↔ .accepted e ∈ tr := by
  simp only [accepted, List.mem_filterMap]
  constructor
  · rintro ⟨o, ho, he⟩
    cases o with
    | accepted ev =>
      obtain rfl := Option.some.inj he
      exact ho
    | emitted ev => cases he
  · intro h
    exact ⟨_, h, rfl⟩

theorem mem_emitted {e : Event C V} : e ∈ emitted tr ↔ .emitted e ∈ tr := by
  simp only [emitted, List.mem_filterMap]
  constructor
  · rintro ⟨o, ho, he⟩
    cases o with
    | accepted ev => cases he
    | emitted ev =>
      obtain rfl := Option.some.inj he
      exact ho
  · intro h
    exact ⟨_, h, rfl⟩

end

end Trace

/-! ### What one call does to a slot -/

namespace Coalescer

variable {c c' : Coalescer C V} {k : BufKey C} {sub s : Subscription} {last now far : Instant}
  {obs tr : List (Obs C V)} {op : Op C V} {ev : Event C V}

/-- What is still to be handed out of a slot, in order. -/
def pending (c : Coalescer C V) (k : BufKey C) : List (Event C V) :=
  ((c.ready.map Prod.snd).filter fun e => e.slot = k) ++ ((c.buffer[k]?).map Buffered.event).toList

/-- What stands between the calls about one subscription. -/
structure Steady (sub : Subscription) (last : Instant) (c : Coalescer C V) : Prop where
  indexed : Indexed c
  /-- The ready queue is due. -/
  due : ∀ r ∈ c.ready, r.1 ≤ last
  /-- A subscription that passes through has no entry to order against. -/
  plain : c.effective_policy sub = none → ∀ key, c.buffer[((sub, key) : BufKey C)]? = none
  /-- A subscription that settles has nothing ready. -/
  settling : c.effective_policy sub ≠ none → ∀ r ∈ c.ready, r.2.subscription ≠ sub
  kinds : ∀ key b, c.buffer[((sub, key) : BufKey C)]? = some b → b.event.kind.is_lifecycle = true

/-- What one call does to what is pending of a slot, with what it shows. -/
inductive Change (k : BufKey C) (op : Op C V) (c c' : Coalescer C V) : List (Obs C V) → Prop where
  | quiet {obs : List (Obs C V)} (ho : ∀ o ∈ obs, o.event.slot ≠ k)
      (hp : pending c' k = pending c k) : Change k op c c' obs
  /-- A change joins what is pending. -/
  | pushed {ev : Event C V} (hs : ev.slot = k) (hp : pending c' k = pending c k ++ [ev]) :
      Change k op c c' [.accepted ev]
  /-- A change is folded into the last that is pending. -/
  | folded {ev old new : Event C V} (l : List (Event C V)) (hs : ev.slot = k)
      (hp : pending c k = l ++ [old]) (hp' : pending c' k = l ++ [new]) (hn : new.slot = k)
      (hk : new.kind.present = ev.kind.present) : Change k op c c' [.accepted ev]
  /-- A departure takes the arrival that is pending away. -/
  | annihilated {ev : Event C V} (hs : ev.slot = k) (hk : ev.kind = .removed)
      (ha : Annihilates c k op)
      (hp : pending c' k = (c.ready.map Prod.snd).filter fun e => e.slot = k) :
      Change k op c c' [.accepted ev]
  /-- Some events are handed out, those of the slot from the front. -/
  | handed (out : List (Event C V))
      (hp : (out.filter fun e => e.slot = k) ++ pending c' k = pending c k) :
      Change k op c c' (out.map .emitted)

section
omit [LawfulEqOrd C]

theorem pending_congr (hr : c'.ready = c.ready) (hb : c'.buffer[k]? = c.buffer[k]?) :
    pending c' k = pending c k := by
  unfold pending
  rw [hr, hb]

theorem pending_none (hb : c.buffer[k]? = none) :
    pending c k = (c.ready.map Prod.snd).filter fun e => e.slot = k := by
  unfold pending
  rw [hb, Option.map_none, Option.toList_none, List.append_nil]

theorem pending_some {b : Buffered C V} (hb : c.buffer[k]? = some b) :
    pending c k = ((c.ready.map Prod.snd).filter fun e => e.slot = k) ++ [b.event] := by
  unfold pending
  rw [hb]
  rfl

/-- Events of other slots in the ready queue are not seen. -/
theorem pending_ready {l : List (Instant × Event C V)} (hr : c'.ready = c.ready ++ l)
    (hl : ∀ r ∈ l, r.2.slot ≠ k) (hb : c'.buffer[k]? = c.buffer[k]?) :
    pending c' k = pending c k := by
  have hn : (l.map Prod.snd).filter (fun e => decide (e.slot = k)) = [] := by
    rw [List.filter_eq_nil_iff]
    intro e he
    obtain ⟨r, hr, rfl⟩ := List.mem_map.mp he
    simpa using hl r hr
  unfold pending
  rw [hr, hb, List.map_append, List.filter_append, hn, List.append_nil]

end

/-! ### The collapse table -/

section
omit [Ord C] [TransOrd C] [LawfulEqOrd C] [DecidableEq C]

theorem collapse_keep {a b : EventKind C} (ha : a.is_lifecycle = true) (hb : b.is_lifecycle = true)
    (h : collapse a b = .keep_buffered) : a.present = b.present := by
  cases a <;> cases b <;> simp_all [collapse, EventKind.present, EventKind.is_lifecycle]

theorem collapse_churn {a b : EventKind C} (h : collapse a b = .become_modified) :
    b.present = true := by
  cases a <;> cases b <;> simp_all [collapse, EventKind.present]

theorem collapse_annihilate {a b : EventKind C} (h : collapse a b = .annihilate) :
    a = .created ∧ b = .removed := by
  cases a <;> cases b <;> simp_all [collapse]

end

theorem Folded.elsewhere {b : Buffered C V} (hf : Folded c c' ev b) (hk : ev.slot ≠ k) :
    c'.buffer[k]? = c.buffer[k]? := by
  cases hf with
  | kept b' he => rw [he, get_insert, if_neg hk]
  | replaced b' he => rw [he, get_insert, if_neg hk]
  | churned b' he => rw [he, get_insert, if_neg hk]
  | annihilated he => rw [he, get_erase, if_neg hk]

/-- Folding a change into an entry shows at its own slot only. -/
theorem Folded.change {b : Buffered C V} (hf : Folded c c' ev b) (hr : c'.ready = c.ready)
    (hb : c.buffer[ev.slot]? = some b) (hs : b.event.slot = ev.slot)
    (hk : ev.slot = k → ev.kind.is_lifecycle = true ∧ b.event.kind.is_lifecycle = true) :
    Change k (.admit_event ev now far) c c' [.accepted ev] := by
  have hget : ∀ b' : Buffered C V, c'.buffer = c.buffer.insert ev.slot b' →
      c'.buffer[k]? = if ev.slot = k then some b' else c.buffer[k]? := by
    intro b' he
    rw [he, get_insert]
  by_cases hk' : ev.slot = k
  · obtain ⟨hke, hkb⟩ := hk hk'
    subst hk'
    -- the slot holds another entry, with the presence the change says
    have hfold : ∀ b' : Buffered C V, c'.buffer = c.buffer.insert ev.slot b' →
        b'.event.slot = ev.slot → b'.event.kind.present = ev.kind.present →
        Change ev.slot (.admit_event ev now far) c c' [.accepted ev] := by
      intro b' he hs' hp
      have hb' := hget b' he
      rw [if_pos rfl] at hb'
      refine .folded _ rfl (pending_some hb) ?_ hs' hp
      rw [pending_some hb', hr]
    cases hf with
    | kept b' he hkb' hs' hc =>
      exact hfold b' he (hs'.trans hs) (by rw [hkb']; exact collapse_keep hkb hke hc)
    | replaced b' he hev hc => exact hfold b' he (by rw [hev]) (by rw [hev])
    | churned b' he hkb' hs' hc =>
      exact hfold b' he hs' (by rw [hkb', collapse_churn hc]; rfl)
    | annihilated he hc =>
      obtain ⟨hc₁, hc₂⟩ := collapse_annihilate hc
      refine .annihilated rfl hc₂ ⟨rfl, hc₂, b, hb, hc₁⟩ ?_
      have hb' : c'.buffer[ev.slot]? = none := by
        rw [he, get_erase, if_pos rfl]
      rw [pending_none hb', hr]
  · exact .quiet (by simpa [Obs.event] using hk') (pending_congr hr (hf.elsewhere hk'))

/-! ### One lemma per call -/

/-- What one call leaves, and what it does to the slots of a subscription. -/
def Stepped (sub : Subscription) (last : Instant) (op : Op C V) (c : Coalescer C V) : Prop :=
  ∃ c' obs, c.step op = some (c', obs) ∧ Steady sub last c' ∧
    ∀ key, Change (sub, key) op c c' obs

section
omit [TransOrd C] [LawfulEqOrd C] [DecidableEq C]

theorem effective_policy_congr (hp : c'.policies = c.policies) (hd : c'.default = c.default) :
    c'.effective_policy s = c.effective_policy s := by
  unfold effective_policy
  rw [hp, hd]

end

section
omit [LawfulEqOrd C]

/-- An event of another subscription, or of one that passes through, becomes
    ready. -/
theorem Steady.push (h : Steady sub last c) (op : Op C V) (ev : Event C V) (hl : last ≤ now)
    (hp : ev.subscription = sub → c.effective_policy sub = none) :
    Steady sub now (c.push_ready now ev) ∧
      ∀ key, Change (sub, key) op c (c.push_ready now ev) [.accepted ev] := by
  refine ⟨⟨h.indexed.congr rfl rfl, ?_, h.plain, ?_, h.kinds⟩, ?_⟩
  · intro r hr
    rcases List.mem_append.mp hr with hr | hr
    · exact Nat.le_trans (h.due r hr) hl
    · rw [List.mem_singleton.mp hr]
  · intro hn r hr
    rcases List.mem_append.mp hr with hr | hr
    · exact h.settling hn r hr
    · rw [List.mem_singleton.mp hr]
      intro hs
      exact hn (hp hs)
  · intro key
    by_cases hs : ev.slot = (sub, key)
    · refine .pushed hs ?_
      have hb := h.plain (hp (congrArg Prod.fst hs)) key
      rw [pending_none hb, pending_none (c := c.push_ready now ev) hb]
      simp [push_ready, hs]
    · refine .quiet (by simpa [Obs.event] using hs) ?_
      refine pending_ready rfl ?_ rfl
      simpa using hs

end

/-- Entries of other subscriptions are flushed. -/
theorem Steady.flush (h : Steady sub last c) (hl : last ≤ now) (hs : s ≠ sub) :
    Steady sub now (c.flush_subscription s now) ∧
      ∀ key, pending (c.flush_subscription s now) (sub, key) = pending c (sub, key) := by
  obtain ⟨l, hb, hls, hi, hbuf, hr, hp, hd⟩ := h.indexed.flush s now
  have hkeep : ∀ key, (c.flush_subscription s now).buffer[((sub, key) : BufKey C)]? =
      c.buffer[((sub, key) : BufKey C)]? := by
    intro key
    rw [hbuf, if_neg]
    intro hm
    obtain ⟨e, he, hek⟩ := List.mem_map.mp hm
    exact hs ((hls e he).symm.trans (congrArg Prod.fst hek))
  -- what becomes ready is of the flushed subscription
  have hother : ∀ e ∈ l, e.2.event.subscription ≠ sub := by
    intro e he hsub
    have hslot := h.indexed.placed _ _ (hb.held e he)
    exact hs ((hls e he).symm.trans ((congrArg Prod.fst hslot).symm.trans hsub))
  refine ⟨⟨hi, ?_, ?_, ?_, ?_⟩, ?_⟩
  · intro r hm
    rw [hr] at hm
    rcases List.mem_append.mp hm with hm | hm
    · exact Nat.le_trans (h.due r hm) hl
    · obtain ⟨e, -, rfl⟩ := List.mem_map.mp hm
      exact Nat.le_refl now
  · intro hn key
    rw [effective_policy_congr hp hd] at hn
    rw [hkeep]
    exact h.plain hn key
  · intro hn r hm
    rw [effective_policy_congr hp hd] at hn
    rw [hr] at hm
    rcases List.mem_append.mp hm with hm | hm
    · exact h.settling hn r hm
    · obtain ⟨e, he, rfl⟩ := List.mem_map.mp hm
      exact hother e he
  · intro key b hb'
    rw [hkeep] at hb'
    exact h.kinds key b hb'
  · intro key
    refine pending_ready hr ?_ (hkeep key)
    intro r hm
    obtain ⟨e, he, rfl⟩ := List.mem_map.mp hm
    intro hslot
    exact hother e he (congrArg Prod.fst hslot)

section
omit [LawfulEqOrd C]

/-- The counter of admissions is not seen. -/
theorem Change.skip {n : Nat} (h : Change k op { c with next_seq := n } c' obs) :
    Change k op c c' obs := by
  cases h with
  | quiet ho hp => exact .quiet ho hp
  | pushed hs hp => exact .pushed hs hp
  | folded l hs hp hp' hn hk => exact .folded l hs hp hp' hn hk
  | annihilated hs hk ha hp => exact .annihilated hs hk ha hp
  | handed out hp => exact .handed out hp

end

/-- A lifecycle change met by a settle policy, from the state that has spent
    its sequence number. -/
theorem Steady.settle {config : DebounceConfig} {r : Option Subscription} (seq : Nat)
    (h : Steady sub last c) (hl : last ≤ now) (hp : ev.subscription = sub →
      c.effective_policy sub ≠ none ∧ ev.kind.is_lifecycle = true)
    (hc : (match c.buffer[ev.slot]? with
      | none => c.open_burst ev now far config seq
      | some buffered => (none, c.fold_burst ev now far config seq buffered)) = (r, c')) :
    Steady sub now c' ∧
      ∀ key, Change (sub, key) (.admit_event ev now far) c c'
        (if r = none then [.accepted ev] else []) := by
  have hdue : ∀ r ∈ c.ready, r.1 ≤ now := fun r hr => Nat.le_trans (h.due r hr) hl
  -- an entry filed in the slot of the change keeps the invariant
  have hfile : ∀ c' : Coalescer C V, Indexed c' → c'.ready = c.ready → c'.policies = c.policies →
      c'.default = c.default → (∀ key b, c'.buffer[((sub, key) : BufKey C)]? = some b →
        b.event.kind.is_lifecycle = true) →
      (∀ key, ev.slot ≠ (sub, key) → c'.buffer[((sub, key) : BufKey C)]? =
        c.buffer[((sub, key) : BufKey C)]?) → Steady sub now c' := by
    intro c' hi hr hpo hd hk hb
    refine ⟨hi, ?_, ?_, ?_, hk⟩
    · rw [hr]
      exact hdue
    · intro hn key
      rw [effective_policy_congr hpo hd] at hn
      rw [hb key]
      · exact h.plain hn key
      · intro hs
        exact (hp (congrArg Prod.fst hs)).1 hn
    · intro hn
      rw [effective_policy_congr hpo hd] at hn
      rw [hr]
      exact h.settling hn
  cases hb : c.buffer[ev.slot]? with
  | none =>
    rw [hb] at hc
    rcases h.indexed.opened hb hc with ⟨rfl, rfl⟩ | ⟨rfl, hi, hr, hpo, hd, b', hbuf, hev⟩
    · exact ⟨⟨h.indexed, hdue, h.plain, h.settling, h.kinds⟩, fun key => .quiet (by simp) rfl⟩
    · have hget : ∀ k : BufKey C, c'.buffer[k]? =
          if ev.slot = k then some b' else c.buffer[k]? := by
        intro k
        rw [hbuf, get_insert]
      refine ⟨hfile c' hi hr hpo hd ?_ ?_, ?_⟩
      · intro key b hb
        rw [hget] at hb
        split at hb
        · rename_i hs
          rw [← Option.some.inj hb, hev]
          exact (hp (congrArg Prod.fst hs)).2
        · exact h.kinds key b hb
      · intro key hs
        rw [hget, if_neg hs]
      · intro key
        rw [if_pos rfl]
        by_cases hs : ev.slot = (sub, key)
        · refine .pushed hs ?_
          have hb' := hget (sub, key)
          rw [if_pos hs] at hb'
          rw [pending_some hb', pending_none (hs ▸ hb), hr, hev]
        · refine .quiet (by simpa [Obs.event] using hs) (pending_congr hr ?_)
          rw [hget, if_neg hs]
  | some b =>
    rw [hb] at hc
    obtain ⟨rfl, rfl⟩ := Prod.mk.inj hc
    obtain ⟨hi, hr, hpo, hd, hf⟩ := h.indexed.fold now far config seq hb
    have hslot := h.indexed.placed _ b hb
    have hlife : ∀ key, ev.slot = (sub, key) →
        ev.kind.is_lifecycle = true ∧ b.event.kind.is_lifecycle = true := by
      intro key hs
      refine ⟨(hp (congrArg Prod.fst hs)).2, ?_⟩
      exact h.kinds key b (hs ▸ hb)
    refine ⟨hfile _ hi hr hpo hd ?_ ?_, ?_⟩
    · intro key b'' hb''
      by_cases hs : ev.slot = (sub, key)
      · obtain ⟨hke, hkb⟩ := hlife key hs
        cases hf with
        | kept b' he hkb' =>
          rw [he, get_insert, if_pos hs] at hb''
          rw [← Option.some.inj hb'', hkb']
          exact hkb
        | replaced b' he hev =>
          rw [he, get_insert, if_pos hs] at hb''
          rw [← Option.some.inj hb'', hev]
          exact hke
        | churned b' he hkb' =>
          rw [he, get_insert, if_pos hs] at hb''
          rw [← Option.some.inj hb'', hkb']
          rfl
        | annihilated he =>
          rw [he, get_erase, if_pos hs] at hb''
          cases hb''
      · refine h.kinds key b'' ?_
        rw [← hb'']
        exact (hf.elsewhere hs).symm
    · intro key hs
      exact hf.elsewhere hs
    · intro key
      rw [if_pos rfl]
      exact hf.change hr hb hslot (hlife key)

theorem Steady.drain (h : Steady sub last c) (hl : last ≤ now) :
    Stepped sub now (.drain_ready now) c := by
  obtain ⟨l, c', hd, hb, ht⟩ := h.indexed.drain fun r hr => Nat.le_trans (h.due r hr) hl
  have hr : c'.ready = [] := ht.ready
  have hpol : ∀ s, c'.effective_policy s = c.effective_policy s :=
    fun s => effective_policy_congr ht.policies ht.default
  refine ⟨c', _, by rw [step, hd]; rfl, ⟨ht.indexed, ?_, ?_, ?_, ?_⟩, ?_⟩
  · rw [hr]
    intro r hm
    cases hm
  · intro hn key
    rw [hpol] at hn
    rw [ht.buffer]
    split
    · rfl
    · exact h.plain hn key
  · intro _
    rw [hr]
    intro r hm
    cases hm
  · intro key b hb'
    rw [ht.buffer] at hb'
    split at hb'
    · cases hb'
    · exact h.kinds key b hb'
  · intro key
    refine .handed _ ?_
    show ((c.ready.map Prod.snd ++ l.map fun e => e.2.event).filter _) ++ _ = _
    rw [List.filter_append, hb.filter_slot h.indexed]
    unfold pending
    rw [hr, ht.buffer]
    split
    · simp
    · simp

theorem Steady.flush_all (h : Steady sub last c) : Stepped sub last .flush_all c := by
  obtain ⟨l, hb, hall, hout⟩ := c.flush_all_spec
  have hi : Indexed c.flush_all.2 := by
    constructor
    · intro due k
      simp [Coalescer.flush_all]
    · intro k b hb
      simp [Coalescer.flush_all] at hb
  refine ⟨c.flush_all.2, _, rfl, ⟨hi, ?_, ?_, ?_, ?_⟩, ?_⟩
  · intro r hm
    cases hm
  · intro _ key
    simp [Coalescer.flush_all]
  · intro _ r hm
    cases hm
  · intro key b hb
    simp [Coalescer.flush_all] at hb
  · intro key
    refine .handed _ ?_
    have hp : pending c.flush_all.2 ((sub, key) : BufKey C) = [] := by
      simp [pending, Coalescer.flush_all]
    rw [hp, hout, List.filter_append, hb.filter_slot h.indexed, List.append_nil]
    unfold pending
    split
    · rfl
    · -- a slot that hands nothing out held nothing
      rename_i hm
      cases hk : c.buffer[((sub, key) : BufKey C)]? with
      | none => rfl
      | some b => exact absurd (List.mem_map_of_mem (hall _ _ hk)) hm

theorem Steady.drop (h : Steady sub last c) (hs : s ≠ sub) :
    Steady sub last (c.drop_subscription s) ∧
      ∀ key, pending (c.drop_subscription s) (sub, key) = pending c (sub, key) := by
  obtain ⟨hi, hb, hr, hp, hd⟩ := h.indexed.drop s
  have hkeep : ∀ key, (c.drop_subscription s).buffer[((sub, key) : BufKey C)]? =
      c.buffer[((sub, key) : BufKey C)]? := fun key => hb (sub, key) (Ne.symm hs)
  refine ⟨⟨hi, ?_, ?_, ?_, ?_⟩, ?_⟩
  · intro r hm
    rw [hr] at hm
    exact h.due r (List.mem_of_mem_filter hm)
  · intro hn key
    rw [effective_policy_congr hp hd] at hn
    rw [hkeep]
    exact h.plain hn key
  · intro hn r hm
    rw [effective_policy_congr hp hd] at hn
    rw [hr] at hm
    exact h.settling hn r (List.mem_of_mem_filter hm)
  · intro key b hb'
    rw [hkeep] at hb'
    exact h.kinds key b hb'
  · intro key
    unfold pending
    rw [hkeep, hr, List.filter_map, List.filter_map, List.filter_filter]
    congr 2
    refine List.filter_congr ?_
    intro r _
    rw [Bool.eq_iff_iff]
    simp only [Function.comp_apply, Bool.and_eq_true, decide_eq_true_eq, ne_eq]
    constructor
    · exact fun hm => hm.1
    · intro hm
      refine ⟨hm, ?_⟩
      intro hsub
      exact hs (hsub.symm.trans (congrArg Prod.fst hm))

section
omit [LawfulEqOrd C] [DecidableEq C]

/-- The policies of the other subscriptions are not seen. -/
theorem Steady.policies {policies : Map Subscription (Option DebounceConfig)}
    (h : Steady sub last c) (hp : policies[sub]? = c.policies[sub]?) :
    Steady sub last { c with policies } := by
  have he : ({ c with policies } : Coalescer C V).effective_policy sub = c.effective_policy sub := by
    unfold effective_policy
    rw [hp]
  refine ⟨h.indexed.congr rfl rfl, h.due, ?_, ?_, h.kinds⟩
  · intro hn
    rw [he] at hn
    exact h.plain hn
  · intro hn
    rw [he] at hn
    exact h.settling hn

end

/-- A move or a `Rescan`, which is of another subscription. -/
theorem Steady.bypass (h : Steady sub last c) (hl : last ≤ now) (hne : ev.subscription ≠ sub)
    (ha : c.admit_event ev now far =
      (none, (c.flush_subscription ev.subscription now).push_ready now ev)) :
    Stepped sub now (.admit_event ev now far) c := by
  obtain ⟨hf, hpf⟩ := h.flush hl hne
  obtain ⟨hp, -⟩ := hf.push (.drain_ready now) ev (Nat.le_refl now) fun hs => absurd hs hne
  refine ⟨_, [.accepted ev], by rw [Coalescer.step, ha], hp, fun key => ?_⟩
  have hs : ev.slot ≠ (sub, key) := fun hs => hne (congrArg Prod.fst hs)
  refine .quiet (by simpa [Obs.event] using hs) (Eq.trans ?_ (hpf key))
  refine pending_ready rfl ?_ rfl
  simpa using hs

/-- A lifecycle change. -/
theorem Steady.lifecycle (h : Steady sub last c) (hl : last ≤ now)
    (hk : ev.kind.is_lifecycle = true) : Stepped sub now (.admit_event ev now far) c := by
  cases hp : c.effective_policy ev.subscription with
  | none =>
    obtain ⟨h', hc⟩ := h.push (.admit_event ev now far) ev hl fun hs => hs ▸ hp
    exact ⟨_, _, by rw [Coalescer.step, Coalescer.admit_event_immediate hk hp], h', hc⟩
  | some config =>
    obtain ⟨r, c', hr⟩ : ∃ r c', c.coalesce ev now far config = (r, c') := ⟨_, _, rfl⟩
    have h₁ : Steady sub last { c with next_seq := c.next_seq + 1 } :=
      ⟨h.indexed.congr rfl rfl, h.due, h.plain, h.settling, h.kinds⟩
    obtain ⟨h', hc⟩ := h₁.settle c.next_seq hl (fun hs => ⟨by
      show c.effective_policy sub ≠ none
      rw [← hs, hp]
      exact Option.some_ne_none config, hk⟩) hr
    refine ⟨c', _, ?_, h', fun key => (hc key).skip⟩
    rw [Coalescer.step, (Coalescer.admit_event_coalesced hk hp).trans hr]
    cases r <;> rfl

theorem Steady.admit_event (h : Steady sub last c) (hl : last ≤ now)
    (hk : ev.subscription = sub → ev.kind.is_lifecycle = true) :
    Stepped sub now (.admit_event ev now far) c := by
  cases hlife : ev.kind.is_lifecycle with
  | true => exact h.lifecycle hl hlife
  | false =>
    refine h.bypass hl ?_ (Coalescer.admit_event_flushes hlife)
    intro hs
    rw [hk hs] at hlife
    cases hlife

/-- Every call goes through, keeps the invariant and changes the slots of the
    subscription in one of the ways listed. -/
theorem Steady.step (h : Steady sub last c) (hop : Confined sub op)
    (hl : last ≤ op.now.getD last) : Stepped sub (op.now.getD last) op c := by
  cases op with
  | admit_event ev now far => exact h.admit_event hl hop
  | drain_ready now => exact h.drain hl
  | flush_all => exact h.flush_all
  | set_policy s policy =>
    have hp : (c.set_policy s policy).policies[sub]? = c.policies[sub]? := by
      cases policy with
      | inherit => exact (get_erase ..).trans (if_neg hop)
      | off => exact (get_insert ..).trans (if_neg hop)
      | custom config => exact (get_insert ..).trans (if_neg hop)
    refine ⟨c.set_policy s policy, [], rfl, ?_, fun key => .quiet (by simp) ?_⟩
    · cases policy with
      | inherit => exact h.policies hp
      | off => exact h.policies hp
      | custom config => exact h.policies hp
    · cases policy <;> rfl
  | flush_subscription s now =>
    obtain ⟨h', hp⟩ := h.flush hl hop
    exact ⟨_, [], rfl, h', fun key => .quiet (by simp) (hp key)⟩
  | drop_subscription s =>
    obtain ⟨h', hp⟩ := h.drop hop
    exact ⟨_, [], rfl, h', fun key => .quiet (by simp) (hp key)⟩
  | forget_subscription s =>
    obtain ⟨h', hp⟩ := h.drop hop
    refine ⟨_, [], rfl, h'.policies ?_, fun key => .quiet (by simp) (hp key)⟩
    exact (get_erase ..).trans (if_neg hop)

/-! ### What stands along a run -/

/-- A change of a slot was taken on, and no event of the slot was handed out
    since. -/
def Unreported (k : BufKey C) (tr : List (Obs C V)) : Prop :=
  ∃ l₁ e l₂, tr = l₁ ++ .accepted e :: l₂ ∧ e.slot = k ∧ ∀ e', .emitted e' ∈ l₂ → e'.slot ≠ k

section
omit [Ord C] [TransOrd C] [LawfulEqOrd C] [DecidableEq C]

theorem unreported_append (h : Unreported k (tr ++ obs)) :
    (Unreported k tr ∧ ∀ e', .emitted e' ∈ obs → e'.slot ≠ k) ∨
      ∃ e, .accepted e ∈ obs ∧ e.slot = k := by
  obtain ⟨l₁, e, l₂, he, hs, hl⟩ := h
  rcases List.append_eq_append_iff.mp he with ⟨l, rfl, ho⟩ | ⟨l, rfl, ho⟩
  · right
    refine ⟨e, ?_, hs⟩
    rw [ho]
    simp
  · cases l with
    | nil =>
      right
      refine ⟨e, ?_, hs⟩
      rw [← show _ = obs from ho]
      exact List.mem_cons_self
    | cons o l =>
      obtain ⟨rfl, rfl⟩ := List.cons.inj ho
      left
      exact ⟨⟨l₁, e, l, rfl, hs, fun e' hm => hl e' (List.mem_append_left _ hm)⟩,
        fun e' hm => hl e' (List.mem_append_right _ hm)⟩

end

/-- The consumer, once everything pending is read, has the picture of the
    admitted changes. -/
def Pictured (k : BufKey C) (held : Bool) (c : Coalescer C V) (tr : List (Obs C V)) : Prop :=
  told k held (emitted tr ++ pending c k) = told k held (accepted tr)

/-- A key that is present and was changed unreported has an event pending. -/
def Owed (k : BufKey C) (held : Bool) (c : Coalescer C V) (tr : List (Obs C V)) : Prop :=
  Unreported k tr → told k held (accepted tr) = true → pending c k ≠ []

variable {held : Bool}

section
omit [Ord C] [TransOrd C] [LawfulEqOrd C]

theorem accepted_quiet (ho : ∀ o ∈ obs, o.event.slot ≠ k) :
    told k held (accepted (tr ++ obs)) = told k held (accepted tr) := by
  rw [accepted_append, told_append]
  refine told_absent ?_
  intro e he
  exact ho _ (mem_accepted.mp he)

theorem emitted_quiet (ho : ∀ o ∈ obs, o.event.slot ≠ k) (l : List (Event C V)) :
    told k held (emitted (tr ++ obs) ++ l) = told k held (emitted tr ++ l) := by
  rw [emitted_append, List.append_assoc, told_append, told_append, told_append]
  congr 1
  refine told_absent ?_
  intro e he
  exact ho _ (mem_emitted.mp he)

theorem accepted_last (hs : ev.slot = k) :
    told k held (accepted (tr ++ [.accepted ev])) = ev.kind.present := by
  rw [accepted_append, told_append]
  exact told_of_slot hs

theorem told_last {l : List (Event C V)} (hs : ev.slot = k) :
    told k held (l ++ [ev]) = ev.kind.present := by
  rw [told_append]
  exact told_of_slot hs

end

section
omit [Ord C] [TransOrd C] [LawfulEqOrd C] [DecidableEq C]

theorem emitted_accepted : emitted (tr ++ [.accepted ev]) = emitted tr := by
  rw [emitted_append]
  exact List.append_nil _

end

section
omit [LawfulEqOrd C]

theorem Change.pictured (h : Change k op c c' obs) (hp : Pictured k held c tr)
    (hr : Annihilates c k op → (c.ready.map Prod.snd).filter (fun e => e.slot = k) = [])
    (hs : Annihilates c k op → told k held (emitted tr) = false) :
    Pictured k held c' (tr ++ obs) := by
  unfold Pictured at hp ⊢
  cases h with
  | quiet ho hq => rw [accepted_quiet ho, emitted_quiet ho, hq, hp]
  | pushed hev hq =>
    rw [accepted_last hev, emitted_accepted, hq, ← List.append_assoc, told_last hev]
  | folded l hev hq hq' hn hk =>
    rw [accepted_last hev, emitted_accepted, hq', ← List.append_assoc, told_last hn, hk]
  | annihilated hev hk ha hq =>
    rw [accepted_last hev, emitted_accepted, hq, hr ha, List.append_nil, hs ha, hk]
    rfl
  | handed out hq =>
    rw [accepted_append, accepted_map_emitted, List.append_nil, emitted_append,
      emitted_map_emitted, ← hp, ← hq]
    simp only [told_append, told_filter]

theorem Change.owed (h : Change k op c c' obs) (hw : Owed k held c tr) :
    Owed k held c' (tr ++ obs) := by
  intro hu hp
  cases h with
  | quiet ho hq =>
    rw [accepted_quiet ho] at hp
    rcases unreported_append hu with ⟨hu, -⟩ | ⟨e, he, hs⟩
    · rw [hq]
      exact hw hu hp
    · exact absurd hs (ho _ he)
  | pushed hev hq =>
    rw [hq]
    simp
  | folded l hev hq hq' hn hk =>
    rw [hq']
    simp
  | annihilated hev hk ha hq =>
    rw [accepted_last hev, hk] at hp
    cases hp
  | handed out hq =>
    rcases unreported_append hu with ⟨hu, hm⟩ | ⟨e, he, hs⟩
    · -- nothing of the slot was among what was handed out
      have hn : out.filter (fun e => decide (e.slot = k)) = [] := by
        rw [List.filter_eq_nil_iff]
        intro e he
        simpa using hm e (List.mem_map_of_mem he)
      rw [hn, List.nil_append] at hq
      rw [accepted_append, accepted_map_emitted, List.append_nil] at hp
      rw [hq]
      exact hw hu hp
    · obtain ⟨e', -, he⟩ := List.mem_map.mp he
      cases he

/-- A slot that settles has nothing ready. -/
theorem Steady.ready_none (h : Steady sub last c) {key : List C}
    (ha : Annihilates c (sub, key) op) :
    (c.ready.map Prod.snd).filter (fun e => e.slot = ((sub, key) : BufKey C)) = [] := by
  cases op with
  | admit_event ev now far =>
    obtain ⟨-, -, b, hb, -⟩ := ha
    have hn : c.effective_policy sub ≠ none := by
      intro hn
      rw [h.plain hn key] at hb
      cases hb
    rw [List.filter_eq_nil_iff]
    intro e he
    obtain ⟨r, hr, rfl⟩ := List.mem_map.mp he
    have hs := h.settling hn r hr
    simp only [decide_eq_true_eq]
    intro hslot
    exact hs (congrArg Prod.fst hslot)
  | _ => exact absurd ha id

end

/-- A run goes through, and what stands at its start stands at its end. -/
theorem Steady.run {ops : List (Op C V)} (h : Steady sub last c) (hop : ∀ op ∈ ops, Confined sub op)
    (ht : Timed last ops) (tr : List (Obs C V)) :
    ∃ c' obs, c.run ops = some (c', obs) ∧ ∀ key held,
      (Pictured (sub, key) held c tr → Spared (sub, key) held c tr ops →
        Pictured (sub, key) held c' (tr ++ obs)) ∧
      (Owed (sub, key) held c tr → Owed (sub, key) held c' (tr ++ obs)) := by
  induction ops generalizing c last tr with
  | nil =>
    refine ⟨c, [], rfl, fun key held => ?_⟩
    rw [List.append_nil]
    exact ⟨fun hp _ => hp, id⟩
  | cons op ops ih =>
    obtain ⟨c₁, obs₁, hs, h₁, hc⟩ := h.step (hop op List.mem_cons_self) ht.1
    obtain ⟨c', obs, hr, hrun⟩ :=
      ih h₁ (fun op hm => hop op (List.mem_cons_of_mem _ hm)) ht.2 (tr ++ obs₁)
    refine ⟨c', obs₁ ++ obs, ?_, fun key held => ?_⟩
    · show (c.step op).bind _ = _
      rw [hs, Option.bind_some, hr]
      rfl
    · obtain ⟨hp, hw⟩ := hrun key held
      rw [← List.append_assoc]
      refine ⟨fun hpic hsp => hp ?_ (hsp.2 c₁ obs₁ hs), fun ho => hw ((hc key).owed ho)⟩
      exact (hc key).pictured hpic h.ready_none hsp.1

end Coalescer

open Coalescer

/-- The one subscription of the runs below. -/
def settling : Subscription := ⟨⟨1, Nat.one_pos⟩, Proto.ProtoId.min⟩

/-- A change of the key `7`. -/
def flicker (kind : EventKind Nat) : Event Nat Unit where
  subscription := settling
  epoch := Proto.Epoch.START
  key := [7]
  kind := kind
  location := []
  change_id := none
  value := none
  is_dir := none

/-- The key is overwritten and then removed within one window. -/
def flickered : List (Op Nat Unit) :=
  [.admit_event (flicker .created) 0 0, .admit_event (flicker .removed) 1 0, .flush_all]

section
omit [LawfulEqOrd C]

end

/-- The key appears, is written and goes, which is one annihilation, and then
    appears again and is written, all within one window. -/
def churned : List (Op Nat Unit) :=
  [.admit_event (flicker .created) 0 0, .admit_event (flicker .modified) 1 0,
    .admit_event (flicker .removed) 2 0, .admit_event (flicker .created) 3 0,
    .admit_event (flicker .modified) 4 0] ++ [.flush_all]

end Umbrella
