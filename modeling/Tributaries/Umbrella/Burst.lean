import Tributaries.Umbrella.Coalesce

/-! # What the coalescer's operations do to a slot

  The deadline index names exactly the buffered entries, so a drain never
  meets a missing one.  Every operation is described slot by slot: which
  entry it leaves there, and which events it moves to the ready queue or
  hands out.
-/

open Std Collections

namespace Umbrella

variable {C V : Type} [Ord C] [TransOrd C] [LawfulEqOrd C] [DecidableEq C]

/-- The slot an event belongs to. -/
def Event.slot (e : Event C V) : BufKey C := (e.subscription, e.key)

/-- The kinds the collapse table knows. -/
def EventKind.is_lifecycle : EventKind C → Bool
  | .created | .modified | .removed => true
  | _ => false

namespace Coalescer

variable {c c' : Coalescer C V} {k key : BufKey C} {b entry : Buffered C V} {now far : Instant}
  {ev : Event C V} {sub s : Subscription}

/-! ### The index -/

/-- The deadline index names the buffered entries, and each is in its slot. -/
structure Indexed (c : Coalescer C V) : Prop where
  named : ∀ (due : Instant) (k : BufKey C), (due, k) ∈ c.deadlines ↔
    ∃ b, c.buffer[k]? = some b ∧ b.emit_at = due
  placed : ∀ (k : BufKey C) (b : Buffered C V), c.buffer[k]? = some b → b.event.slot = k

section
omit [LawfulEqOrd C] [DecidableEq C]

theorem Indexed.new (default : Option DebounceConfig)
    (policies : Map Subscription (Option DebounceConfig)) :
    Indexed { (Coalescer.new default : Coalescer C V) with policies } where
  named due k := by
    simp [Coalescer.new]
  placed k b hb := by
    simp [Coalescer.new] at hb

theorem Indexed.congr (h : Indexed c) (hb : c'.buffer = c.buffer)
    (hd : c'.deadlines = c.deadlines) : Indexed c' where
  named := by
    rw [hb, hd]
    exact h.named
  placed := by
    rw [hb]
    exact h.placed

end

/-- An entry filed anew, in place of what its slot held. -/
theorem Indexed.file (h : Indexed c) (hs : entry.event.slot = key)
    (hb : c'.buffer = c.buffer.insert key entry)
    (hd : ∀ due k, (due, k) ∈ c'.deadlines ↔
      if k = key then due = entry.emit_at else (due, k) ∈ c.deadlines) : Indexed c' where
  named due k := by
    rw [hd, hb, get_insert]
    by_cases hk : k = key
    · rw [if_pos hk, if_pos hk.symm]
      constructor
      · intro he
        exact ⟨entry, rfl, he.symm⟩
      · rintro ⟨b, hb, he⟩
        rw [← he, ← Option.some.inj hb]
    · rw [if_neg hk, if_neg (Ne.symm hk)]
      exact h.named due k
  placed k b hb' := by
    rw [hb, get_insert] at hb'
    split at hb'
    · rename_i hk
      rw [← Option.some.inj hb', hs, hk]
    · exact h.placed k b hb'

@[simp] theorem take_entry_buffer (c : Coalescer C V) (key : BufKey C) (entry : Buffered C V)
    (k : BufKey C) :
    (c.take_entry key entry).buffer[k]? = if key = k then none else c.buffer[k]? := by
  simp only [take_entry, get_erase]

section
omit [LawfulEqOrd C] [DecidableEq C]

@[simp] theorem take_entry_ready (c : Coalescer C V) (key : BufKey C) (entry : Buffered C V) :
    (c.take_entry key entry).ready = c.ready := rfl

end

section
omit [TransOrd C] [LawfulEqOrd C] [DecidableEq C]

/-- Only the counter of a subscription changes. -/
theorem dec_per_sub_eq (c : Coalescer C V) (sub : Subscription) :
    ∃ per, c.dec_per_sub sub = { c with per_sub_len := per } := by
  unfold dec_per_sub
  split
  · exact ⟨_, rfl⟩
  · split
    · exact ⟨_, rfl⟩
    · exact ⟨_, rfl⟩

end

/-- The entry of a slot leaves with its deadline. -/
theorem Indexed.take (h : Indexed c) (hb : c.buffer[key]? = some entry) :
    Indexed (c.take_entry key entry) where
  named due k := by
    show (due, k) ∈ c.deadlines.erase (entry.emit_at, key) ↔ _
    rw [mem_erase_iff, take_entry_buffer, h.named]
    by_cases hk : key = k
    · subst hk
      rw [if_pos rfl, hb]
      constructor
      · rintro ⟨hne, b, he, hdue⟩
        rw [← Option.some.inj he] at hdue
        exact absurd (by rw [hdue]) hne
      · rintro ⟨b, he, -⟩
        cases he
    · rw [if_neg hk]
      constructor
      · exact fun hm => hm.2
      · intro hm
        exact ⟨fun he => hk (congrArg Prod.snd he), hm⟩
  placed k b hb' := by
    rw [take_entry_buffer] at hb'
    split at hb'
    · cases hb'
    · exact h.placed k b hb'

/-! ### Entries taken out in a row -/

/-- Some entries of the buffer, each of its own slot. -/
structure Batch (c : Coalescer C V) (l : List (BufKey C × Buffered C V)) : Prop where
  nodup : (l.map Prod.fst).Nodup
  held : ∀ e ∈ l, c.buffer[e.1]? = some e.2

section
omit [LawfulEqOrd C] [DecidableEq C]

theorem Batch.sort {l : List (BufKey C × Buffered C V)} (h : Batch c l) :
    Batch c (l.insertionSort emission_le) where
  nodup := ((List.perm_insertionSort emission_le l).map Prod.fst).nodup_iff.mpr h.nodup
  held e he := h.held e ((List.mem_insertionSort emission_le).mp he)

end

section
omit [DecidableEq C]

theorem Batch.filter (c : Coalescer C V) (p : BufKey C × Buffered C V → Bool) :
    Batch c (c.buffer.toList.filter p) where
  nodup := by
    refine List.Nodup.sublist (List.filter_sublist.map _) ?_
    rw [List.nodup_iff_pairwise_ne, List.pairwise_map]
    exact c.buffer.distinct_keys_toList.imp fun h e => h (by rw [e]; exact ReflCmp.compare_self)
  held e he := mem_toList.mp (List.mem_of_mem_filter he)

end

theorem Batch.tail {e : BufKey C × Buffered C V} {l : List (BufKey C × Buffered C V)}
    (h : Batch c (e :: l)) : Batch (c.take_entry e.1 e.2) l where
  nodup := (List.nodup_cons.mp h.nodup).2
  held d hd := by
    rw [take_entry_buffer, if_neg]
    · exact h.held d (List.mem_cons_of_mem _ hd)
    · intro he
      exact (List.nodup_cons.mp h.nodup).1 (he ▸ List.mem_map_of_mem hd)

section
omit [LawfulEqOrd C] [DecidableEq C]

theorem Batch.congr {l : List (BufKey C × Buffered C V)} (h : Batch c l)
    (hb : c'.buffer = c.buffer) : Batch c' l where
  nodup := h.nodup
  held e he := by
    rw [hb]
    exact h.held e he

end

section
omit [LawfulEqOrd C]

/-- A batch hands out of a slot what the slot holds, if it holds anything. -/
theorem Batch.filter_slot {l : List (BufKey C × Buffered C V)} (hi : Indexed c) (h : Batch c l)
    (k : BufKey C) :
    (l.map fun e => e.2.event).filter (fun e => e.slot = k) =
      if k ∈ l.map Prod.fst then ((c.buffer[k]?).map Buffered.event).toList else [] := by
  obtain ⟨hn, hh⟩ := h
  induction l with
  | nil => rfl
  | cons e l ih =>
    obtain ⟨hne, hn⟩ := List.nodup_cons.mp hn
    have ih := ih hn fun d hd => hh d (List.mem_cons_of_mem _ hd)
    have he := hh e List.mem_cons_self
    have hs : e.2.event.slot = e.1 := hi.placed _ _ he
    rw [List.map_cons, List.map_cons, List.filter_cons, hs]
    by_cases hk : e.1 = k
    · subst hk
      rw [if_neg hne] at ih
      rw [decide_eq_true rfl, if_pos rfl, if_pos List.mem_cons_self, ih, he]
      rfl
    · have hm : k ∈ e.1 :: l.map Prod.fst ↔ k ∈ l.map Prod.fst := by
        simp [Ne.symm hk]
      rw [decide_eq_false hk, ih]
      simp only [hm, Bool.false_eq_true, if_false]

end

/-- What taking a batch out leaves. -/
structure Taken (c c' : Coalescer C V) (l : List (BufKey C × Buffered C V)) : Prop where
  indexed : Indexed c'
  buffer : ∀ k : BufKey C, c'.buffer[k]? = if k ∈ l.map Prod.fst then none else c.buffer[k]?
  ready : c'.ready = c.ready
  policies : c'.policies = c.policies
  default : c'.default = c.default

section
omit [LawfulEqOrd C]

theorem Taken.nil (h : Indexed c) : Taken c c [] where
  indexed := h
  buffer := by simp
  ready := rfl
  policies := rfl
  default := rfl

end

theorem Taken.cons {e : BufKey C × Buffered C V} {l : List (BufKey C × Buffered C V)}
    (h : Taken (c.take_entry e.1 e.2) c' l) : Taken c c' (e :: l) where
  indexed := h.indexed
  buffer k := by
    rw [h.buffer, take_entry_buffer, List.map_cons]
    by_cases hl : k ∈ l.map Prod.fst
    · rw [if_pos hl, if_pos (List.mem_cons_of_mem _ hl)]
    · by_cases hk : e.1 = k
      · rw [if_neg hl, if_pos hk, if_pos (hk ▸ List.mem_cons_self)]
      · rw [if_neg hl, if_neg hk, if_neg]
        intro hm
        rcases List.mem_cons.mp hm with hm | hm
        · exact hk hm.symm
        · exact hl hm
  ready := h.ready
  policies := h.policies
  default := h.default

theorem take_all (l : List (BufKey C × Buffered C V)) :
    ∀ c : Coalescer C V, Indexed c → Batch c l →
      Taken c (l.foldl (fun c entry => c.take_entry entry.1 entry.2) c) l := by
  induction l with
  | nil =>
    intro c h _
    exact .nil h
  | cons e l ih =>
    intro c h hb
    have he := hb.held e List.mem_cons_self
    exact .cons (ih _ (h.take he) hb.tail)

/-- A drain hands out a batch and never misses an entry. -/
theorem release_all (l : List (BufKey C × Buffered C V)) :
    ∀ (c : Coalescer C V) (out : List (Event C V)), Indexed c → Batch c l →
      ∃ c', l.foldlM (fun out entry => release out entry.1) (out, c) =
        some (out ++ l.map fun e => e.2.event, c') ∧ Taken c c' l := by
  induction l with
  | nil =>
    intro c out h _
    refine ⟨c, ?_, .nil h⟩
    simp
  | cons e l ih =>
    intro c out h hb
    have he := hb.held e List.mem_cons_self
    obtain ⟨per, hper⟩ := (c.take_entry e.1 e.2).dec_per_sub_eq e.1.1
    have hi : Indexed ((c.take_entry e.1 e.2).dec_per_sub e.1.1) := by
      rw [hper]
      exact (h.take he).congr rfl rfl
    have hb' : Batch ((c.take_entry e.1 e.2).dec_per_sub e.1.1) l := by
      rw [hper]
      exact hb.tail.congr rfl
    obtain ⟨c', hc', ht⟩ := ih _ (out ++ [e.2.event]) hi hb'
    refine ⟨c', ?_, .cons ?_⟩
    · have hrel : release (out, c) e.1 =
          some (out ++ [e.2.event], (c.take_entry e.1 e.2).dec_per_sub e.1.1) := by
        simp only [release, he, Option.map_some]
      rw [List.foldlM_cons, hrel]
      show List.foldlM _ _ l = _
      rw [hc', List.map_cons, List.append_assoc]
      rfl
    · rw [hper] at ht
      exact ⟨ht.indexed, ht.buffer, ht.ready, ht.policies, ht.default⟩

section
omit [LawfulEqOrd C] [DecidableEq C]

/-- Slots that hold an entry are read in a row. -/
theorem read_slots {keys : List (BufKey C)} (hn : keys.Nodup)
    (hk : ∀ key ∈ keys, ∃ b, c.buffer[key]? = some b) :
    ∃ l, (keys.mapM fun key => (c.buffer[key]?).map fun entry => (key, entry)) = some l ∧
      l.map Prod.fst = keys ∧ Batch c l := by
  induction keys with
  | nil => exact ⟨[], rfl, rfl, ⟨List.nodup_nil, by simp⟩⟩
  | cons key keys ih =>
    obtain ⟨hnk, hn⟩ := List.nodup_cons.mp hn
    obtain ⟨b, hb⟩ := hk key List.mem_cons_self
    obtain ⟨l, hl, hlk, hbatch⟩ := ih hn fun k hm => hk k (List.mem_cons_of_mem _ hm)
    refine ⟨(key, b) :: l, ?_, ?_, ?_, ?_⟩
    · rw [List.mapM_cons, hb, hl]
      rfl
    · rw [List.map_cons, hlk]
    · rw [List.map_cons, hlk]
      exact List.nodup_cons.mpr ⟨hnk, hn⟩
    · intro e he
      rcases List.mem_cons.mp he with rfl | he
      · exact hb
      · exact hbatch.held e he

end

section
omit [DecidableEq C]

/-- The index names each slot once. -/
theorem Indexed.nodup (h : Indexed c) : (c.deadlines.toList.map Prod.snd).Nodup := by
  refine List.Nodup.map_on ?_ ?_
  · rintro ⟨due, k⟩ hx ⟨due', k'⟩ hy he
    obtain rfl : k = k' := he
    obtain ⟨b, hb, hd⟩ := (h.named due k).mp (ExtTreeSet.mem_toList.mp hx)
    obtain ⟨b', hb', hd'⟩ := (h.named due' k).mp (ExtTreeSet.mem_toList.mp hy)
    rw [hb] at hb'
    obtain rfl := Option.some.inj hb'
    rw [← hd, ← hd']
  · exact c.deadlines.distinct_toList.imp fun h e => h (by rw [e]; exact ReflCmp.compare_self)

end

section
omit [LawfulEqOrd C] [DecidableEq C]

/-- The deadlines in order: those met at `now` come first. -/
theorem deadlines_due (c : Coalescer C V) (now : Instant) :
    (c.deadlines.toList.takeWhile fun d => d.1 ≤ now) =
      c.deadlines.toList.filter fun d => d.1 ≤ now := by
  have h : c.deadlines.toList.Pairwise fun a b => b.1 ≤ now → a.1 ≤ now := by
    refine c.deadlines.ordered_toList.imp ?_
    intro a b hab hb
    have hle : (compare a.1 b.1).isLE := by
      have hlt : compareLex (compareOn Prod.fst) (compareOn Prod.snd) a b = .lt := hab
      simp only [compareLex, compareOn, Ordering.then_eq_lt] at hlt
      rcases hlt with hlt | ⟨heq, -⟩
      · rw [hlt]
        rfl
      · rw [heq]
        rfl
    exact Nat.le_trans (Nat.isLE_compare.mp hle) hb
  exact takeWhile_eq_filter (h.imp fun hab hb => decide_eq_true (hab (of_decide_eq_true hb)))

end

/-- With nothing in the ready queue ahead of the clock, a drain hands out the
    whole queue and then the buffered entries that are due, as a batch. -/
theorem Indexed.drain_exact (h : Indexed c) (hr : ∀ r ∈ c.ready, r.1 ≤ now) :
    ∃ l c', c.drain_ready now = some (c.ready.map Prod.snd ++ l.map fun e => e.2.event, c') ∧
      Batch c l ∧ Taken { c with ready := [] } c' l ∧
      (∀ k b, (k, b) ∈ l ↔ c.buffer[k]? = some b ∧ b.emit_at ≤ now) ∧
      l.foldlM (fun out entry => release out entry.1)
        (c.ready.map Prod.snd, { c with ready := [] }) =
          some (c.ready.map Prod.snd ++ l.map fun e => e.2.event, c') ∧
      ∃ read, (((c.deadlines.toList.takeWhile fun d => d.1 ≤ now).map Prod.snd).mapM fun key =>
        (c.buffer[key]?).map fun entry => (key, entry)) = some read ∧
          l = read.insertionSort emission_le := by
  have htake : c.ready.takeWhile (fun r => r.1 ≤ now) = c.ready := by
    rw [List.takeWhile_eq_self_iff]
    intro r hm
    exact decide_eq_true (hr r hm)
  have hdrop : c.ready.dropWhile (fun r => r.1 ≤ now) = [] := by
    rw [List.dropWhile_eq_nil_iff]
    intro r hm
    exact decide_eq_true (hr r hm)
  have hsub : ((c.deadlines.toList.takeWhile fun d => d.1 ≤ now).map Prod.snd).Sublist
      (c.deadlines.toList.map Prod.snd) := (List.takeWhile_sublist _).map _
  obtain ⟨l, hl, hkeys, hb⟩ := read_slots (c := c) (h.nodup.sublist hsub) fun key hm => by
    obtain ⟨⟨due, k⟩, hd, rfl⟩ := List.mem_map.mp (hsub.subset hm)
    obtain ⟨b, hb, -⟩ := (h.named due k).mp (ExtTreeSet.mem_toList.mp hd)
    exact ⟨b, hb⟩
  have hi : Indexed { c with ready := [] } := h.congr rfl rfl
  obtain ⟨c', hc', ht⟩ := release_all (l.insertionSort emission_le) { c with ready := [] }
    (c.ready.map Prod.snd) hi (hb.sort.congr rfl)
  refine ⟨l.insertionSort emission_le, c', ?_, hb.sort, ht, ?_, hc', l, hl, rfl⟩
  · unfold drain_ready
    rw [htake, hdrop]
    exact (congrArg (fun due => Option.bind due _) hl).trans hc'
  · intro k b
    rw [List.mem_insertionSort]
    constructor
    · intro hm
      have hbuf : c.buffer[k]? = some b := hb.held _ hm
      have hk : k ∈ (c.deadlines.toList.takeWhile fun d => d.1 ≤ now).map Prod.snd := by
        rw [← hkeys]
        exact List.mem_map_of_mem hm
      rw [deadlines_due] at hk
      obtain ⟨⟨due, k'⟩, hd, rfl⟩ := List.mem_map.mp hk
      obtain ⟨hd, hle⟩ := List.mem_filter.mp hd
      obtain ⟨b', hb', hdue⟩ := (h.named due k').mp (ExtTreeSet.mem_toList.mp hd)
      refine ⟨hbuf, ?_⟩
      rw [Option.some.inj (hbuf.symm.trans hb'), hdue]
      exact of_decide_eq_true hle
    · rintro ⟨hbuf, hle⟩
      have hk : k ∈ l.map Prod.fst := by
        rw [hkeys, deadlines_due]
        refine List.mem_map.mpr ⟨(b.emit_at, k), ?_, rfl⟩
        refine List.mem_filter.mpr ⟨ExtTreeSet.mem_toList.mpr ?_, decide_eq_true hle⟩
        exact (h.named _ _).mpr ⟨b, hbuf, rfl⟩
      obtain ⟨⟨k', b'⟩, hm, rfl⟩ := List.mem_map.mp hk
      have hbuf' : c.buffer[k']? = some b' := hb.held _ hm
      rw [Option.some.inj (hbuf.symm.trans hbuf')]
      exact hm

theorem Indexed.drain (h : Indexed c) (hr : ∀ r ∈ c.ready, r.1 ≤ now) :
    ∃ l c', c.drain_ready now = some (c.ready.map Prod.snd ++ l.map fun e => e.2.event, c') ∧
      Batch c l ∧ Taken { c with ready := [] } c' l := by
  obtain ⟨l, c', hc', hb, ht, -⟩ := h.drain_exact hr
  exact ⟨l, c', hc', hb, ht⟩

/-! ### Admissions -/

/-- A slot's entry is folded into: it stays, under a new deadline. -/
theorem Indexed.refile (h : Indexed c) (hb : c.buffer[key]? = some b)
    (hs : entry.event.slot = key) : Indexed (c.refile key b.emit_at entry) := by
  refine h.file hs rfl ?_
  intro due k
  have hat : ∀ due, (due, key) ∈ c.deadlines ↔ due = b.emit_at := by
    intro due
    rw [h.named, hb]
    constructor
    · rintro ⟨b', he, hd⟩
      rw [← hd, Option.some.inj he]
    · intro hd
      exact ⟨b, rfl, hd.symm⟩
  show (due, k) ∈ (if entry.emit_at ≠ b.emit_at then _ else _) ↔ _
  by_cases hk : k = key
  · subst hk
    rw [if_pos rfl]
    split
    · -- the deadline moved
      rw [mem_insert_iff, mem_erase_iff, hat]
      constructor
      · rintro (he | ⟨hne, rfl⟩)
        · exact (congrArg Prod.fst he).symm
        · exact absurd rfl hne
      · rintro rfl
        exact .inl rfl
    · rename_i hne
      rw [hat, not_not.mp hne]
  · rw [if_neg hk]
    split
    · rw [mem_insert_iff, mem_erase_iff]
      constructor
      · rintro (he | ⟨-, hm⟩)
        · exact absurd (congrArg Prod.snd he).symm hk
        · exact hm
      · intro hm
        exact .inr ⟨fun he => hk (congrArg Prod.snd he).symm, hm⟩
    · exact Iff.rfl

/-- What folding a change into the entry of its slot leaves there. -/
inductive Folded (c c' : Coalescer C V) (ev : Event C V) (b : Buffered C V) : Prop where
  /-- The net effect stays, at the newest epoch. -/
  | kept (b' : Buffered C V) (hb : c'.buffer = c.buffer.insert ev.slot b')
      (hk : b'.event.kind = b.event.kind) (hs : b'.event.slot = b.event.slot)
      (hc : collapse b.event.kind ev.kind = .keep_buffered)
  /-- The change itself is the net effect. -/
  | replaced (b' : Buffered C V) (hb : c'.buffer = c.buffer.insert ev.slot b') (he : b'.event = ev)
      (hc : collapse b.event.kind ev.kind = .replace_with_incoming)
  /-- The net effect is a change neither of the two says. -/
  | churned (b' : Buffered C V) (hb : c'.buffer = c.buffer.insert ev.slot b')
      (hk : b'.event.kind = .modified) (hs : b'.event.slot = ev.slot)
      (hc : collapse b.event.kind ev.kind = .become_modified)
  /-- The entry is gone. -/
  | annihilated (hb : c'.buffer = c.buffer.erase ev.slot)
      (hc : collapse b.event.kind ev.kind = .annihilate)

theorem Indexed.fold (now far : Instant) (config : DebounceConfig) (seq : Nat) (h : Indexed c)
    (hb : c.buffer[ev.slot]? = some b) :
    Indexed (c.fold_burst ev now far config seq b) ∧
      (c.fold_burst ev now far config seq b).ready = c.ready ∧
      (c.fold_burst ev now far config seq b).policies = c.policies ∧
      (c.fold_burst ev now far config seq b).default = c.default ∧
      Folded c (c.fold_burst ev now far config seq b) ev b := by
  have hs : b.event.slot = ev.slot := h.placed _ b hb
  unfold fold_burst
  dsimp only
  split
  · rename_i hc
    refine ⟨h.refile hb ?_, rfl, rfl, rfl, .kept _ rfl rfl rfl hc⟩
    exact hs
  · rename_i hc
    exact ⟨h.refile hb rfl, rfl, rfl, rfl, .replaced _ rfl rfl hc⟩
  · rename_i hc
    exact ⟨h.refile hb rfl, rfl, rfl, rfl, .churned _ rfl rfl rfl hc⟩
  · rename_i hc
    obtain ⟨per, hper⟩ := (c.take_entry (ev.subscription, ev.key) b).dec_per_sub_eq ev.subscription
    rw [hper]
    refine ⟨(h.take hb).congr rfl rfl, rfl, rfl, rfl, .annihilated rfl hc⟩

/-- The first change of a burst, admitted. -/
theorem Indexed.opened {config : DebounceConfig} {seq : Nat} {c' : Coalescer C V} (h : Indexed c)
    (hb : c.buffer[ev.slot]? = none) {r : Option Subscription}
    (ho : c.open_burst ev now far config seq = (r, c')) :
    (r = some ev.subscription ∧ c' = c) ∨
      (r = none ∧ Indexed c' ∧ c'.ready = c.ready ∧ c'.policies = c.policies ∧
        c'.default = c.default ∧
        ∃ b' : Buffered C V, c'.buffer = c.buffer.insert ev.slot b' ∧ b'.event = ev) := by
  unfold open_burst at ho
  dsimp only at ho
  split at ho
  · obtain ⟨rfl, rfl⟩ := Prod.mk.injEq _ _ _ _ ▸ ho
    exact .inl ⟨rfl, rfl⟩
  · split at ho
    · obtain ⟨rfl, rfl⟩ := Prod.mk.injEq _ _ _ _ ▸ ho
      exact .inl ⟨rfl, rfl⟩
    · obtain ⟨rfl, rfl⟩ := Prod.mk.injEq _ _ _ _ ▸ ho
      right
      refine ⟨rfl, ?_, rfl, rfl, rfl, _, rfl, rfl⟩
      let b' : Buffered C V :=
        { first_seen := now
          emit_at := deadline now now config.quiet_window config.max_hold far
          seq
          event := ev }
      have hs : b'.event.slot = ev.slot := rfl
      refine h.file hs rfl ?_
      intro due k
      show (due, k) ∈ c.deadlines.insert _ ↔ _
      rw [mem_insert_iff]
      by_cases hk : k = ev.slot
      · subst hk
        rw [if_pos rfl, h.named, hb]
        constructor
        · rintro (he | ⟨b, hb, -⟩)
          · exact (congrArg Prod.fst he).symm
          · cases hb
        · rintro rfl
          exact .inl rfl
      · rw [if_neg hk]
        constructor
        · rintro (he | hm)
          · exact absurd (congrArg Prod.snd he).symm hk
          · exact hm
        · exact .inr

/-- A flush moves the entries of its subscription, and only them, to the ready
    queue. -/
theorem Indexed.flush (h : Indexed c) (s : Subscription) (now : Instant) :
    ∃ l, Batch c l ∧ (∀ e ∈ l, e.1.1 = s) ∧ Indexed (c.flush_subscription s now) ∧
      (∀ k : BufKey C, (c.flush_subscription s now).buffer[k]? =
        if k ∈ l.map Prod.fst then none else c.buffer[k]?) ∧
      (c.flush_subscription s now).ready = c.ready ++ l.map (fun e => (now, e.2.event)) ∧
      (c.flush_subscription s now).policies = c.policies ∧
      (c.flush_subscription s now).default = c.default := by
  have hb : Batch c ((c.subscription_entries s).insertionSort emission_le) :=
    (Batch.filter c fun entry => entry.1.1 = s).sort
  have ht := take_all _ c h hb
  refine ⟨_, hb, ?_, ht.indexed.congr rfl rfl, ht.buffer, ?_, ht.policies, ht.default⟩
  · intro e he
    have hm := (List.mem_insertionSort emission_le).mp he
    exact of_decide_eq_true (List.mem_filter.mp hm).2
  · show _ ++ _ = _
    rw [ht.ready]

/-- A drop takes the entries of its subscription, and only them, away. -/
theorem Indexed.drop (h : Indexed c) (s : Subscription) :
    Indexed (c.drop_subscription s) ∧
      (∀ k : BufKey C, k.1 ≠ s → (c.drop_subscription s).buffer[k]? = c.buffer[k]?) ∧
      (c.drop_subscription s).ready = c.ready.filter (fun r => r.2.subscription ≠ s) ∧
      (c.drop_subscription s).policies = c.policies ∧
      (c.drop_subscription s).default = c.default := by
  have hb : Batch c (c.subscription_entries s) := Batch.filter c fun entry => entry.1.1 = s
  have ht := take_all _ c h hb
  refine ⟨ht.indexed.congr rfl rfl, ?_, ?_, ht.policies, ht.default⟩
  · intro k hk
    refine (ht.buffer k).trans (if_neg ?_)
    intro hm
    obtain ⟨e, he, rfl⟩ := List.mem_map.mp hm
    exact hk (of_decide_eq_true (List.mem_filter.mp he).2)
  · show List.filter _ _ = _
    rw [ht.ready]

section
omit [DecidableEq C]

/-- Everything leaves. -/
theorem flush_all_spec (c : Coalescer C V) :
    ∃ l, Batch c l ∧ (∀ k b, c.buffer[k]? = some b → (k, b) ∈ l) ∧
      c.flush_all.1 = c.ready.map Prod.snd ++ l.map (fun e => e.2.event) := by
  have hb : Batch c (c.buffer.toList.insertionSort emission_le) := by
    have h := (Batch.filter c fun _ => true).sort
    rwa [List.filter_true] at h
  refine ⟨_, hb, ?_, rfl⟩
  intro k b hk
  exact (List.mem_insertionSort emission_le).mpr (mem_toList.mpr hk)

end

/-! ### Admissions by kind -/

section
omit [LawfulEqOrd C] [DecidableEq C]

theorem admit_event_flushes {ev : Event C V} {now far : Instant}
    (hk : ev.kind.is_lifecycle = false) :
    c.admit_event ev now far =
      (none, (c.flush_subscription ev.subscription now).push_ready now ev) := by
  unfold admit_event
  cases hkind : ev.kind with
  | rescan => rfl
  | moved source => rfl
  | _ =>
    rw [hkind] at hk
    cases hk

theorem admit_event_immediate {ev : Event C V} {now far : Instant} (hk : ev.kind.is_lifecycle = true)
    (hp : c.effective_policy ev.subscription = none) :
    c.admit_event ev now far = (none, c.push_ready now ev) := by
  unfold admit_event
  rw [hp]
  cases hkind : ev.kind with
  | rescan =>
    rw [hkind] at hk
    cases hk
  | moved source =>
    rw [hkind] at hk
    cases hk
  | _ => rfl

theorem admit_event_coalesced {ev : Event C V} {now far : Instant} {config : DebounceConfig}
    (hk : ev.kind.is_lifecycle = true) (hp : c.effective_policy ev.subscription = some config) :
    c.admit_event ev now far = c.coalesce ev now far config := by
  unfold admit_event
  rw [hp]
  cases hkind : ev.kind with
  | rescan =>
    rw [hkind] at hk
    cases hk
  | moved source =>
    rw [hkind] at hk
    cases hk
  | _ => rfl

end

end Coalescer

end Umbrella
