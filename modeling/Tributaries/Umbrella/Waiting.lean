import Tributaries.Umbrella.Bookkeeping

/-! # What the coalescer holds

  Every operation of the coalescer, read off the events it holds: which it
  takes on, which it hands out, and which it drops.  An admission refuses a
  change, holds it, or folds it into the one its slot held.
-/

open Std Collections

namespace Umbrella

namespace Coalescer

variable {C V : Type} [Ord C] [TransOrd C] [LawfulEqOrd C] [DecidableEq C]
  {c c' : Coalescer C V} {x ev : Event C V} {last now far : Instant} {used : Set Subscription}
  {s : Subscription}

/-- An event is held: it settles, or it is ready. -/
def Waits (c : Coalescer C V) (x : Event C V) : Prop :=
  (∃ (k : BufKey C) (b : Buffered C V), c.buffer[k]? = some b ∧ b.event = x) ∨
    ∃ r ∈ c.ready, r.2 = x

/-- Only changes of one key settle: a move or a `Rescan` never does. -/
def Lifecycle (c : Coalescer C V) : Prop :=
  ∀ (k : BufKey C) (b : Buffered C V), c.buffer[k]? = some b → b.event.kind.is_lifecycle = true

section
omit [LawfulEqOrd C] [DecidableEq C]

theorem new_waits (default : Option DebounceConfig) :
    ¬ (Coalescer.new default : Coalescer C V).Waits x := by
  rintro (⟨k, b, hb, -⟩ | ⟨r, hr, -⟩)
  · simp [Coalescer.new] at hb
  · exact absurd hr List.not_mem_nil

theorem new_lifecycle (default : Option DebounceConfig) :
    Lifecycle (Coalescer.new default : Coalescer C V) := by
  intro k b hb
  simp [Coalescer.new] at hb

theorem set_policy_lifecycle (hl : Lifecycle c) (s : Subscription) (policy : Debounce) :
    Lifecycle (c.set_policy s policy) := by
  cases policy <;> exact hl

theorem set_policy_waits (c : Coalescer C V) (s : Subscription) (policy : Debounce) :
    (c.set_policy s policy).Waits x ↔ c.Waits x := by
  cases policy <;> exact Iff.rfl

end

/-! ### Drops and drains -/

/-- A drop takes what its subscription has here, and nothing else. -/
theorem drop_waits (h : Kept last used c) (s : Subscription) :
    (c.drop_subscription s).Waits x ↔ c.Waits x ∧ x.subscription ≠ s := by
  obtain ⟨-, -, hbuf⟩ := h.drop s
  obtain ⟨-, -, hready, -, -⟩ := h.indexed.drop s
  have hslot : ∀ (k : BufKey C) (b : Buffered C V), c.buffer[k]? = some b →
      k.1 = b.event.subscription := by
    intro k b hb
    exact (congrArg Prod.fst (h.indexed.placed k b hb)).symm
  constructor
  · intro hx
    rcases hx with ⟨k, b, hb, rfl⟩ | ⟨r, hr, rfl⟩
    · rw [hbuf] at hb
      split at hb
      · cases hb
      · rename_i hk
        exact ⟨.inl ⟨k, b, hb, rfl⟩, hslot k b hb ▸ hk⟩
    · rw [hready] at hr
      obtain ⟨hr, hs⟩ := List.mem_filter.mp hr
      exact ⟨.inr ⟨r, hr, rfl⟩, of_decide_eq_true hs⟩
  · intro hx
    obtain ⟨⟨k, b, hb, rfl⟩ | ⟨r, hr, rfl⟩, hs⟩ := hx
    · refine .inl ⟨k, b, ?_, rfl⟩
      rw [hbuf, if_neg (hslot k b hb ▸ hs)]
      exact hb
    · refine .inr ⟨r, ?_, rfl⟩
      rw [hready]
      exact List.mem_filter.mpr ⟨hr, decide_eq_true hs⟩

theorem forget_waits (h : Kept last used c) (s : Subscription) :
    (c.forget_subscription s).Waits x ↔ c.Waits x ∧ x.subscription ≠ s := drop_waits h s

theorem drop_lifecycle (h : Kept last used c) (hl : Lifecycle c) (s : Subscription) :
    Lifecycle (c.drop_subscription s) := by
  intro k b hb
  rw [(h.drop s).2.2] at hb
  split at hb
  · cases hb
  · exact hl k b hb

theorem forget_lifecycle (h : Kept last used c) (hl : Lifecycle c) (s : Subscription) :
    Lifecycle (c.forget_subscription s) := drop_lifecycle h hl s

/-- A drain hands out some of what is held, and keeps the rest. -/
theorem drain_waits (h : Kept last used c) (hl : last ≤ now) :
    ∃ out c', c.drain_ready now = some (out, c') ∧ Kept now used c' ∧ c'.ready = [] ∧
      (Lifecycle c → Lifecycle c') ∧ ∀ x, c.Waits x ↔ c'.Waits x ∨ x ∈ out := by
  obtain ⟨out, c', hdrain, -, hk, ⟨due, hdue, -, rfl⟩, hleft, hready⟩ := h.drain hl
  refine ⟨_, c', hdrain, hk, hready, fun hs k b hb => hs k b ((hleft k b).mp hb).1, ?_⟩
  intro x
  constructor
  · intro hx
    rcases hx with ⟨k, b, hb, rfl⟩ | ⟨r, hr, rfl⟩
    · by_cases hle : b.emit_at ≤ now
      · right
        exact List.mem_append_right _ (List.mem_map.mpr ⟨(k, b), (hdue k b).mpr ⟨hb, hle⟩, rfl⟩)
      · exact .inl (.inl ⟨k, b, (hleft k b).mpr ⟨hb, Nat.lt_of_not_le hle⟩, rfl⟩)
    · exact .inr (List.mem_append_left _ (List.mem_map.mpr ⟨r, hr, rfl⟩))
  · intro hx
    rcases hx with (⟨k, b, hb, rfl⟩ | ⟨r, hr, rfl⟩) | hx
    · exact .inl ⟨k, b, ((hleft k b).mp hb).1, rfl⟩
    · rw [hready] at hr
      exact absurd hr List.not_mem_nil
    · rcases List.mem_append.mp hx with hx | hx
      · obtain ⟨r, hr, rfl⟩ := List.mem_map.mp hx
        exact .inr ⟨r, hr, rfl⟩
      · obtain ⟨⟨k, b⟩, hm, rfl⟩ := List.mem_map.mp hx
        exact .inl ⟨k, b, ((hdue k b).mp hm).1, rfl⟩

section
omit [DecidableEq C]

/-- The teardown flush hands out everything. -/
theorem mem_flush_all : x ∈ c.flush_all.1 ↔ c.Waits x := by
  have hm : x ∈ c.flush_all.1 ↔ x ∈ c.ready.map Prod.snd ∨
      x ∈ (c.buffer.toList.insertionSort emission_le).map fun e => e.2.event := List.mem_append
  rw [hm]
  constructor
  · intro hx
    rcases hx with hx | hx
    · obtain ⟨r, hr, rfl⟩ := List.mem_map.mp hx
      exact .inr ⟨r, hr, rfl⟩
    · obtain ⟨⟨k, b⟩, hb, rfl⟩ := List.mem_map.mp hx
      exact .inl ⟨k, b, mem_toList.mp ((List.mem_insertionSort emission_le).mp hb), rfl⟩
  · intro hx
    rcases hx with ⟨k, b, hb, rfl⟩ | ⟨r, hr, rfl⟩
    · right
      exact List.mem_map.mpr
        ⟨(k, b), (List.mem_insertionSort emission_le).mpr (mem_toList.mpr hb), rfl⟩
    · exact .inl (List.mem_map.mpr ⟨r, hr, rfl⟩)

end

section
omit [LawfulEqOrd C] [DecidableEq C]

theorem flush_all_lifecycle (c : Coalescer C V) : Lifecycle c.flush_all.2 := by
  intro k b hb
  simp [Coalescer.flush_all] at hb

theorem flush_all_waits (c : Coalescer C V) : ¬ c.flush_all.2.Waits x := by
  rintro (⟨k, b, hb, -⟩ | ⟨r, hr, -⟩)
  · simp [Coalescer.flush_all] at hb
  · exact absurd hr List.not_mem_nil

end

/-- A flush only moves what is held. -/
theorem flush_waits (h : Kept last used c) (s : Subscription) (now : Instant) :
    (c.flush_subscription s now).Waits x ↔ c.Waits x := by
  obtain ⟨l, hbatch, -, -, hbuf, hready, -, -⟩ := h.indexed.flush s now
  constructor
  · intro hx
    rcases hx with ⟨k, b, hb, rfl⟩ | ⟨r, hr, rfl⟩
    · rw [hbuf] at hb
      split at hb
      · cases hb
      · exact .inl ⟨k, b, hb, rfl⟩
    · rw [hready] at hr
      rcases List.mem_append.mp hr with hr | hr
      · exact .inr ⟨r, hr, rfl⟩
      · obtain ⟨e, he, rfl⟩ := List.mem_map.mp hr
        exact .inl ⟨e.1, e.2, hbatch.held e he, rfl⟩
  · intro hx
    rcases hx with ⟨k, b, hb, rfl⟩ | ⟨r, hr, rfl⟩
    · by_cases hk : k ∈ l.map Prod.fst
      · obtain ⟨e, he, rfl⟩ := List.mem_map.mp hk
        refine .inr ⟨(now, e.2.event), ?_, ?_⟩
        · rw [hready]
          exact List.mem_append_right _ (List.mem_map.mpr ⟨e, he, rfl⟩)
        · rw [Option.some.inj (hb.symm.trans (hbatch.held e he))]
      · refine .inl ⟨k, b, ?_, rfl⟩
        rw [hbuf, if_neg hk]
        exact hb
    · refine .inr ⟨r, ?_, rfl⟩
      rw [hready]
      exact List.mem_append_left _ hr

theorem flush_lifecycle (h : Kept last used c) (hl : Lifecycle c) (s : Subscription) (now : Instant) :
    Lifecycle (c.flush_subscription s now) := by
  intro k b hb
  rw [h.flush_buffer] at hb
  split at hb
  · cases hb
  · exact hl k b hb

/-- Nothing of a flushed subscription still settles. -/
theorem flush_settled (h : Kept last used c) (s : Subscription) (now : Instant) {k : BufKey C}
    (hk : k.1 = s) : (c.flush_subscription s now).buffer[k]? = none := by
  rw [h.flush_buffer, if_pos hk]

/-! ### Admissions -/

/-- What a slot holds once a change is folded into it. -/
inductive Folds (old ev : Event C V) : Event C V → Prop where
  | kept (h : collapse old.kind ev.kind = .keep_buffered) : Folds old ev (old.set_epoch ev.epoch)
  | replaced (h : collapse old.kind ev.kind = .replace_with_incoming) : Folds old ev ev
  | churned (h : collapse old.kind ev.kind = .become_modified) : Folds old ev
      ((Event.synthetic ev.subscription ev.key ev.location .modified ev.epoch).set_value ev.value)

section
omit [LawfulEqOrd C] [DecidableEq C]

theorem push_ready_waits (c : Coalescer C V) (now : Instant) (ev : Event C V) :
    (c.push_ready now ev).Waits x ↔ c.Waits x ∨ x = ev := by
  constructor
  · intro hx
    rcases hx with hx | ⟨r, hr, rfl⟩
    · exact .inl (.inl hx)
    · rcases List.mem_append.mp hr with hr | hr
      · exact .inl (.inr ⟨r, hr, rfl⟩)
      · rw [List.mem_singleton.mp hr]
        exact .inr rfl
  · intro hx
    rcases hx with (hx | ⟨r, hr, rfl⟩) | rfl
    · exact .inl hx
    · exact .inr ⟨r, List.mem_append_left _ hr, rfl⟩
    · exact .inr ⟨(now, x), List.mem_append_right _ (List.mem_singleton.mpr rfl), rfl⟩

end

/-- A slot's new entry is held; nothing else is new. -/
theorem file_waits {key : BufKey C} {b' : Buffered C V} (hb : c'.buffer = c.buffer.insert key b')
    (hr : c'.ready = c.ready) : (∀ x, c'.Waits x → c.Waits x ∨ x = b'.event) ∧ c'.Waits b'.event := by
  refine ⟨?_, .inl ⟨key, b', ?_, rfl⟩⟩
  · intro x hx
    rcases hx with ⟨k, b, hk, rfl⟩ | ⟨r, hm, rfl⟩
    · rw [hb, get_insert] at hk
      split at hk
      · rw [Option.some.inj hk]
        exact .inr rfl
      · exact .inl (.inl ⟨k, b, hk, rfl⟩)
    · exact .inl (.inr ⟨r, hr ▸ hm, rfl⟩)
  · rw [hb, get_insert, if_pos rfl]

/-- A change met the one its slot held: the slot holds their fold, or a `Created` was
    undone before it was ever told. -/
structure Merges (c' : Coalescer C V) (old ev : Event C V) : Prop where
  slot : old.slot = ev.slot
  lifecycle : old.kind.is_lifecycle = true ∧ ev.kind.is_lifecycle = true
  result : (∃ y, c'.Waits y ∧ Folds old ev y) ∨ old.kind = .created ∧ ev.kind = .removed

/-- What one admission of `ev`, answered `r`, makes of the events held. -/
structure Admits (c c' : Coalescer C V) (ev : Event C V) (r : Option Subscription) : Prop where
  /-- Only the change itself is new, or what it was folded into. -/
  back : ∀ x, c'.Waits x → c.Waits x ∨ r = none ∧ (x = ev ∨
    ∃ old, c.Waits old ∧ Merges c' old ev ∧ Folds old ev x)
  /-- Only what the change is folded into leaves. -/
  forth : ∀ x, c.Waits x → c'.Waits x ∨ r = none ∧ Merges c' x ev
  /-- A change that is not refused is held or folded. -/
  taken : r = none → c'.Waits ev ∨ ∃ old, c.Waits old ∧ Merges c' old ev
  refused : ∀ s, r = some s → s = ev.subscription
  /-- A `Rescan` or a move meets no cap. -/
  uncapped : ev.kind.is_lifecycle = false → r = none
  settling : Lifecycle c'

section
omit [LawfulEqOrd C] [DecidableEq C]

theorem Admits.pushed (hf : ∀ x, c'.Waits x ↔ c.Waits x ∨ x = ev) (hl : Lifecycle c') :
    Admits c c' ev none where
  back x hx := ((hf x).mp hx).imp_right fun he => ⟨rfl, .inl he⟩
  forth x hx := .inl ((hf x).mpr (.inl hx))
  taken _ := .inl ((hf ev).mpr (.inr rfl))
  refused s hs := by cases hs
  uncapped _ := rfl
  settling := hl

end

theorem fold_burst_admits {config : DebounceConfig} {seq : Nat} {b : Buffered C V} (h : Indexed c)
    (hl : Lifecycle c) (hb : c.buffer[ev.slot]? = some b) (hk : ev.kind.is_lifecycle = true) :
    Admits c (c.fold_burst ev now far config seq b) ev none := by
  have hslot : b.event.slot = ev.slot := h.placed _ b hb
  have hold : c.Waits b.event := .inl ⟨_, b, hb, rfl⟩
  have hkind : b.event.kind.is_lifecycle = true := hl _ b hb
  -- what settled in the slot is the only one that leaves
  have left : ∀ (c' : Coalescer C V) (x : Event C V),
      (∀ k : BufKey C, ev.slot ≠ k → c'.buffer[k]? = c.buffer[k]?) → c'.ready = c.ready →
      c.Waits x → c'.Waits x ∨ x = b.event := by
    intro c' x hbuf hready hx
    rcases hx with ⟨k, b', hk', rfl⟩ | ⟨r, hr, rfl⟩
    · by_cases he : ev.slot = k
      · subst he
        rw [Option.some.inj (hb.symm.trans hk')]
        exact .inr rfl
      · refine .inl (.inl ⟨k, b', ?_, rfl⟩)
        rw [hbuf k he]
        exact hk'
    · exact .inl (.inr ⟨r, hready.symm ▸ hr, rfl⟩)
  -- a new entry in the slot, made of the old one and the change
  have filed : ∀ (c' : Coalescer C V) (b' : Buffered C V), c'.buffer = c.buffer.insert ev.slot b' →
      c'.ready = c.ready → Folds b.event ev b'.event → b'.event.kind.is_lifecycle = true →
      Admits c c' ev none := by
    intro c' b' hbuf hready hfold hkind'
    have hget : ∀ k : BufKey C, c'.buffer[k]? = if ev.slot = k then some b' else c.buffer[k]? := by
      intro k
      rw [hbuf, get_insert]
    obtain ⟨hback, hnew⟩ := file_waits hbuf hready
    have hm : Merges c' b.event ev := ⟨hslot, ⟨hkind, hk⟩, .inl ⟨_, hnew, hfold⟩⟩
    refine ⟨?_, ?_, fun _ => .inr ⟨_, hold, hm⟩, ?_, fun _ => rfl, ?_⟩
    · intro x hx
      rcases hback x hx with hx | rfl
      · exact .inl hx
      · exact .inr ⟨rfl, .inr ⟨_, hold, hm, hfold⟩⟩
    · intro x hx
      rcases left c' x (fun k hne => by rw [hget, if_neg hne]) hready hx with hx | rfl
      · exact .inl hx
      · exact .inr ⟨rfl, hm⟩
    · intro s hs
      cases hs
    · intro k b'' hb''
      rw [hget] at hb''
      split at hb''
      · rw [← Option.some.inj hb'']
        exact hkind'
      · exact hl k b'' hb''
  unfold fold_burst
  dsimp only
  split
  · rename_i hc
    exact filed _ _ rfl rfl (.kept hc) hkind
  · rename_i hc
    exact filed _ _ rfl rfl (.replaced hc) hk
  · rename_i hc
    exact filed _ _ rfl rfl (.churned hc) rfl
  · -- the two cancel out: the slot is empty
    rename_i hc
    obtain ⟨per, hper⟩ := (c.take_entry (ev.subscription, ev.key) b).dec_per_sub_eq ev.subscription
    rw [hper]
    have hbuf : ∀ k : BufKey C, (c.take_entry (ev.subscription, ev.key) b).buffer[k]? =
        if ((ev.subscription, ev.key) : BufKey C) = k then none else c.buffer[k]? :=
      take_entry_buffer c _ b
    have hm : ∀ c' : Coalescer C V, Merges c' b.event ev :=
      fun c' => ⟨hslot, ⟨hkind, hk⟩, .inr (collapse_annihilate hc)⟩
    refine ⟨?_, ?_, fun _ => .inr ⟨_, hold, hm _⟩, ?_, fun _ => rfl, ?_⟩
    · intro x hx
      rcases hx with ⟨k, b', hk', rfl⟩ | hx
      · rw [hbuf] at hk'
        split at hk'
        · cases hk'
        · exact .inl (.inl ⟨k, b', hk', rfl⟩)
      · exact .inl (.inr hx)
    · intro x hx
      rcases left _ x (fun k hne => (hbuf k).trans (if_neg hne)) rfl hx with hx | rfl
      · exact .inl hx
      · exact .inr ⟨rfl, hm _⟩
    · intro s hs
      cases hs
    · intro k b' hb'
      rw [hbuf] at hb'
      split at hb'
      · cases hb'
      · exact hl k b' hb'

theorem coalesce_admits {config : DebounceConfig} (h : Indexed c) (hl : Lifecycle c)
    (hk : ev.kind.is_lifecycle = true) :
    Admits c (c.coalesce ev now far config).2 ev (c.coalesce ev now far config).1 := by
  -- spending a sequence number changes nothing that is held
  have numbered : ∀ {c' : Coalescer C V} {r : Option Subscription},
      Admits { c with next_seq := c.next_seq + 1 } c' ev r → Admits c c' ev r :=
    fun ha => ⟨ha.back, ha.forth, ha.taken, ha.refused, ha.uncapped, ha.settling⟩
  have hn : Indexed { c with next_seq := c.next_seq + 1 } := h.congr rfl rfl
  unfold coalesce
  dsimp only
  cases hb : c.buffer[((ev.subscription, ev.key) : BufKey C)]? with
  | some b => exact numbered (fold_burst_admits hn hl hb hk)
  | none =>
    refine numbered ?_
    generalize hr : open_burst _ ev now far config c.next_seq = result
    obtain ⟨r, c'⟩ := result
    rcases hn.opened hb hr with ⟨rfl, rfl⟩ | ⟨rfl, -, hready, -, -, b', hbuf, rfl⟩
    · refine ⟨fun x hx => .inl hx, fun x hx => .inl hx, ?_, ?_, ?_, hl⟩
      · intro he
        cases he
      · intro s hs
        exact (Option.some.inj hs).symm
      · intro he
        rw [hk] at he
        cases he
    · -- the slot was empty
      obtain ⟨hback, hnew⟩ := file_waits hbuf hready
      refine ⟨?_, ?_, fun _ => .inl hnew, ?_, fun _ => rfl, ?_⟩
      · intro x hx
        exact (hback x hx).imp_right fun he => ⟨rfl, .inl he⟩
      · intro x hx
        left
        rcases hx with ⟨k, b, hk', rfl⟩ | ⟨r, hm, rfl⟩
        · refine .inl ⟨k, b, ?_, rfl⟩
          rw [hbuf, get_insert]
          split
          · rename_i he
            subst he
            exact absurd (hb.symm.trans hk') (by simp)
          · exact hk'
        · exact .inr ⟨r, hready.symm ▸ hm, rfl⟩
      · intro s hs
        cases hs
      · intro k b hb'
        rw [hbuf, get_insert] at hb'
        split at hb'
        · rw [← Option.some.inj hb']
          exact hk
        · exact hl k b hb'

theorem admit_admits (h : Kept last used c) (hl : Lifecycle c) (ev : Event C V) (now far : Instant) :
    Admits c (c.admit_event ev now far).2 ev (c.admit_event ev now far).1 := by
  -- a flush and the event behind it
  have bypass : Admits c ((c.flush_subscription ev.subscription now).push_ready now ev) ev none := by
    refine .pushed ?_ (flush_lifecycle h hl ev.subscription now)
    intro x
    rw [push_ready_waits, flush_waits h]
  by_cases hk : ev.kind.is_lifecycle = true
  · -- a change under its policy
    cases hp : c.effective_policy ev.subscription with
    | none =>
      rw [admit_event_immediate hk hp]
      exact .pushed (fun x => push_ready_waits c now ev) hl
    | some config =>
      rw [admit_event_coalesced hk hp]
      exact coalesce_admits h.indexed hl hk
  · unfold admit_event
    cases hkind : ev.kind with
    | rescan => exact bypass
    | moved source => exact bypass
    | _ => exact absurd (by rw [hkind]; rfl) hk

end Coalescer

end Umbrella
