import Tributaries.Umbrella.Presence
import Tributaries.Tally

/-! # The coalescer's books

  Three structures mirror the buffer: the deadline index, the counter of
  each subscription and the caps read against them.  They agree in every
  state a run reaches, so no check of a debug build fails and a drain takes
  out exactly what is due.
-/

open Std Collections

namespace Umbrella

variable {C V : Type} [Ord C] [TransOrd C] [LawfulEqOrd C] [DecidableEq C]

namespace Coalescer

variable {c c' : Coalescer C V} {k key : BufKey C} {b entry : Buffered C V} {now far last : Instant}
  {ev : Event C V} {sub s : Subscription} {used : Set Subscription}

/-! ### What a debug build checks -/

/-- `dec_per_sub` with its two assertions. -/
def checked_dec_per_sub (c : Coalescer C V) (sub : Subscription) : Option (Coalescer C V) :=
  match c.per_sub_len[sub]? with
  | none => none
  | some count => if count = 0 then none else some (c.dec_per_sub sub)

/-- `debug_check_index`. -/
def check_index (c : Coalescer C V) : Bool := c.deadlines.size = c.buffer.size

def checked_next_deadline (c : Coalescer C V) : Option (Option Instant) :=
  if c.check_index then some c.next_deadline else none

def checked_release (out : List (Event C V) × Coalescer C V) (key : BufKey C) :
    Option (List (Event C V) × Coalescer C V) :=
  (out.2.buffer[key]?).bind fun entry =>
    ((out.2.take_entry key entry).checked_dec_per_sub key.1).map fun c =>
      (out.1 ++ [entry.event], c)

def checked_drain_ready (c : Coalescer C V) (now : Instant) :
    Option (List (Event C V) × Coalescer C V) := do
  let out := (c.ready.takeWhile fun r => r.1 ≤ now).map Prod.snd
  let c := { c with ready := c.ready.dropWhile fun r => r.1 ≤ now }
  let keys := (c.deadlines.toList.takeWhile fun d => d.1 ≤ now).map Prod.snd
  let due ← keys.mapM fun key => (c.buffer[key]?).map fun entry => (key, entry)
  let due := due.insertionSort emission_le
  let r ← due.foldlM (fun out entry => checked_release out entry.1) (out, c)
  if r.2.check_index then some r else none

/-- A flush reads each key it collected, and counts what it moved. -/
def checked_flush (c : Coalescer C V) (sub : Subscription) (now : Instant) :
    Option (Coalescer C V) :=
  let entries := (c.subscription_entries sub).insertionSort emission_le
  (entries.foldlM (fun c entry => (c.buffer[entry.1]?).map fun b => c.take_entry entry.1 b) c).bind
    fun _ => if c.per_sub sub = entries.length then some (c.flush_subscription sub now) else none

/-- A drop counts what it dropped. -/
def checked_drop (c : Coalescer C V) (sub : Subscription) : Option (Coalescer C V) :=
  if c.per_sub sub = (c.subscription_entries sub).length then some (c.drop_subscription sub)
  else none

def checked_coalesce (c : Coalescer C V) (ev : Event C V) (now far : Instant)
    (config : DebounceConfig) : Option (Option Subscription × Coalescer C V) :=
  match c.buffer[((ev.subscription, ev.key) : BufKey C)]? with
  | none => some (c.coalesce ev now far config)
  | some buffered =>
    match collapse buffered.event.kind ev.kind with
    | .annihilate =>
      let c := { c with next_seq := c.next_seq + 1 }
      ((c.take_entry (ev.subscription, ev.key) buffered).checked_dec_per_sub
        ev.subscription).map fun c => (none, c)
    | _ => some (c.coalesce ev now far config)

def checked_admit_event (c : Coalescer C V) (ev : Event C V) (now far : Instant) :
    Option (Option Subscription × Coalescer C V) :=
  match ev.kind with
  | .rescan | .moved _ =>
    (c.checked_flush ev.subscription now).map fun c => (none, c.push_ready now ev)
  | .created | .modified | .removed =>
    match c.effective_policy ev.subscription with
    | none => some (none, c.push_ready now ev)
    | some config => c.checked_coalesce ev now far config

/-- One call as a debug build makes it; `none` is a panic. -/
def checked_step (c : Coalescer C V) : Op C V → Option (Coalescer C V × List (Obs C V))
  | .admit_event ev now far =>
    (c.checked_admit_event ev now far).map fun r =>
      match r with
      | (none, c') => (c', [.accepted ev])
      | (some _, c') => (c', [])
  | .drain_ready now => (c.checked_drain_ready now).map fun r => (r.2, r.1.map .emitted)
  | .flush_all => some (c.flush_all.2, c.flush_all.1.map .emitted)
  | .set_policy sub policy => some (c.set_policy sub policy, [])
  | .flush_subscription sub now => (c.checked_flush sub now).map fun c => (c, [])
  | .drop_subscription sub => (c.checked_drop sub).map fun c => (c, [])
  | .forget_subscription sub =>
    (c.checked_drop sub).map fun c => ({ c with policies := c.policies.erase sub }, [])

/-! ### Books -/

/-- The slots of a subscription that hold an entry. -/
def members (c : Coalescer C V) (s : Subscription) : Set (BufKey C) :=
  { k | k.1 = s ∧ ∃ b, c.buffer[k]? = some b }

/-- A buffered entry under the policy of its subscription. -/
structure Settling (c : Coalescer C V) (s : Subscription) (b : Buffered C V)
    (config : DebounceConfig) : Prop where
  policy : c.effective_policy s = some config
  cap : (c.members s).ncard ≤ config.max_buffered
  hold : b.first_seen + config.max_hold ≤ instant_max → b.emit_at ≤ b.first_seen + config.max_hold

/-- The books agree with the buffer, after calls up to `last` that admitted events of
    the subscriptions `used`. -/
structure Kept (last : Instant) (used : Set Subscription) (c : Coalescer C V) : Prop where
  indexed : Indexed c
  counts : Tally.Counts c.per_sub_len (members c)
  cap : c.buffer.size ≤ c.structural_cap
  used : ∀ (k : BufKey C) (b : Buffered C V), c.buffer[k]? = some b → k.1 ∈ used
  settling : ∀ (k : BufKey C) (b : Buffered C V), c.buffer[k]? = some b →
    ∃ config, Settling c k.1 b config
  ready : ∀ r ∈ c.ready, r.1 ≤ last
  queued : c.ready.Pairwise fun a b => a.1 ≤ b.1

section
omit [LawfulEqOrd C] [DecidableEq C]

theorem Kept.new (default : Option DebounceConfig) :
    Kept last used (Coalescer.new default : Coalescer C V) where
  indexed := Indexed.new default ∅
  counts := Tally.empty.congr fun s => by
    apply Set.eq_empty_of_forall_notMem
    rintro k ⟨-, b, hb⟩
    simp [Coalescer.new] at hb
  cap := by
    have hz : (Coalescer.new default : Coalescer C V).buffer.size = 0 := ExtTreeMap.size_empty
    rw [hz]
    exact Nat.zero_le _
  used k b hb := by
    simp [Coalescer.new] at hb
  settling k b hb := by
    simp [Coalescer.new] at hb
  ready r hr := by
    simp [Coalescer.new] at hr
  queued := List.Pairwise.nil

end

section
omit [DecidableEq C]

/-- The entries listed of a subscription are its members. -/
theorem mem_entries {e : BufKey C × Buffered C V} :
    e ∈ c.subscription_entries s ↔ e.1.1 = s ∧ c.buffer[e.1]? = some e.2 := by
  unfold subscription_entries
  rw [List.mem_filter, mem_toList, decide_eq_true_iff]
  exact and_comm

end

theorem ncard_members (c : Coalescer C V) (s : Subscription) :
    (c.members s).ncard = (c.subscription_entries s).length := by
  have hb : Batch c (c.subscription_entries s) := Batch.filter c fun entry => entry.1.1 = s
  have he : c.members s = (((c.subscription_entries s).map Prod.fst).toFinset : Set (BufKey C)) := by
    ext k
    rw [List.coe_toFinset]
    constructor
    · rintro ⟨hk, b, hb⟩
      exact List.mem_map.mpr ⟨(k, b), mem_entries.mpr ⟨hk, hb⟩, rfl⟩
    · intro hk
      obtain ⟨e, he, rfl⟩ := List.mem_map.mp hk
      obtain ⟨h₁, h₂⟩ := mem_entries.mp he
      exact ⟨h₁, e.2, h₂⟩
  rw [he, Set.ncard_coe_finset, List.toFinset_card_of_nodup hb.nodup, List.length_map]

theorem Kept.per_sub (h : Kept last used c) (s : Subscription) :
    c.per_sub s = (c.subscription_entries s).length := by
  rw [← ncard_members]
  exact h.counts.getD s

section
omit [DecidableEq C]

/-- As many deadlines as entries. -/
theorem Indexed.size (h : Indexed c) : c.deadlines.size = c.buffer.size := by
  have hp : (c.deadlines.toList.map Prod.snd).Perm c.buffer.keys := by
    rw [List.perm_ext_iff_of_nodup h.nodup]
    · intro k
      rw [ExtTreeMap.mem_keys, ← ExtTreeMap.contains_iff_mem, contains_iff]
      constructor
      · intro hk
        obtain ⟨⟨due, k'⟩, hd, rfl⟩ := List.mem_map.mp hk
        obtain ⟨b, hb, -⟩ := (h.named due k').mp (ExtTreeSet.mem_toList.mp hd)
        exact ⟨b, hb⟩
      · rintro ⟨b, hb⟩
        refine List.mem_map.mpr ⟨(b.emit_at, k), ExtTreeSet.mem_toList.mpr ?_, rfl⟩
        exact (h.named _ _).mpr ⟨b, hb, rfl⟩
    · exact c.buffer.distinct_keys.imp fun h e => h (by rw [e]; exact ReflCmp.compare_self)
  have hl := hp.length_eq
  rw [List.length_map, ExtTreeSet.length_toList, ExtTreeMap.length_keys] at hl
  exact hl

theorem Indexed.check (h : Indexed c) : c.check_index = true := decide_eq_true h.size

/-- A buffer with entries of another only is no larger. -/
theorem size_le_of_sub
    (h : ∀ (k : BufKey C) (b : Buffered C V), c'.buffer[k]? = some b → ∃ b', c.buffer[k]? = some b') :
    c'.buffer.size ≤ c.buffer.size := by
  have hn : c'.buffer.keys.Nodup :=
    c'.buffer.distinct_keys.imp fun h e => h (by rw [e]; exact ReflCmp.compare_self)
  have hle := length_le_size (t := c.buffer) hn fun k hk => by
    rw [ExtTreeMap.mem_keys, ← ExtTreeMap.contains_iff_mem, contains_iff] at hk
    obtain ⟨b, hb⟩ := hk
    rw [contains_iff]
    exact h k b hb
  rw [ExtTreeMap.length_keys] at hle
  exact hle

/-- A state with fewer entries, each as it was, keeps what was said of each. -/
theorem Kept.fewer (h : Kept last used c) (hi : Indexed c')
    (hc : Tally.Counts c'.per_sub_len (members c'))
    (hb : ∀ (k : BufKey C) (b : Buffered C V), c'.buffer[k]? = some b → c.buffer[k]? = some b)
    (hp : ∀ (k : BufKey C) (b : Buffered C V), c'.buffer[k]? = some b →
      c'.effective_policy k.1 = c.effective_policy k.1)
    (hd : c'.default = c.default) {now : Instant} (hr : ∀ r ∈ c'.ready, r.1 ≤ now)
    (hq : c'.ready.Pairwise fun a b => a.1 ≤ b.1) : Kept now used c' where
  indexed := hi
  counts := hc
  cap := by
    have hle : c'.buffer.size ≤ c.buffer.size := size_le_of_sub fun k b hk => ⟨b, hb k b hk⟩
    have hcap : c'.structural_cap = c.structural_cap := by
      unfold structural_cap
      rw [hd]
    rw [hcap]
    exact Nat.le_trans hle h.cap
  used k b hk := h.used k b (hb k b hk)
  settling k b hk := by
    obtain ⟨config, hs⟩ := h.settling k b (hb k b hk)
    refine ⟨config, (hp k b hk).trans hs.policy, ?_, hs.hold⟩
    refine Nat.le_trans (Set.ncard_le_ncard ?_ (h.counts.finite k.1)) hs.cap
    rintro x ⟨hx, b', hb'⟩
    exact ⟨hx, b', hb x b' hb'⟩
  ready := hr
  queued := hq

end

section
omit [Ord C] [TransOrd C] [LawfulEqOrd C] [DecidableEq C]

/-- The counter of a subscription goes with its last entries. -/
theorem counts_clear {counts : Map Subscription Nat} {m m' : Subscription → Set (BufKey C)}
    (h : Tally.Counts counts m) (hs : m' s = ∅) (hne : ∀ t, t ≠ s → m' t = m t) :
    Tally.Counts (counts.erase s) m' := by
  refine ⟨fun t => ?_, fun t => ?_⟩
  · by_cases ht : t = s
    · rw [ht, hs]
      exact Set.finite_empty
    · rw [hne t ht]
      exact h.finite t
  · rw [get_erase]
    by_cases ht : s = t
    · rw [if_pos ht, ← ht, hs, Set.ncard_empty, if_pos rfl]
    · rw [if_neg ht, hne t (Ne.symm ht)]
      exact h.count t

end

/-- Reading the keys a batch was collected from misses none. -/
theorem checked_take_all (l : List (BufKey C × Buffered C V)) :
    ∀ c : Coalescer C V, Batch c l →
      l.foldlM (fun c entry => (c.buffer[entry.1]?).map fun b => c.take_entry entry.1 b) c =
        some (l.foldl (fun c entry => c.take_entry entry.1 entry.2) c) := by
  induction l with
  | nil => exact fun _ _ => rfl
  | cons e l ih =>
    intro c hb
    have he := hb.held e List.mem_cons_self
    rw [List.foldlM_cons, he]
    exact ih _ hb.tail

/-! ### Flushes and drops -/

section
omit [LawfulEqOrd C] [DecidableEq C]

theorem take_all_per_sub (l : List (BufKey C × Buffered C V)) :
    ∀ c : Coalescer C V,
      (l.foldl (fun c entry => c.take_entry entry.1 entry.2) c).per_sub_len = c.per_sub_len := by
  induction l with
  | nil => exact fun _ => rfl
  | cons e l ih => exact fun c => ih _

/-- With the entries of a subscription its counter goes. -/
theorem Kept.cleared (h : Kept last used c) (hl : c'.per_sub_len = c.per_sub_len.erase s)
    (hb : ∀ k : BufKey C, c'.buffer[k]? = if k.1 = s then none else c.buffer[k]?) :
    Tally.Counts c'.per_sub_len (members c') := by
  rw [hl]
  apply counts_clear h.counts
  · apply Set.eq_empty_of_forall_notMem
    rintro k ⟨hk, b, hkb⟩
    rw [hb, if_pos hk] at hkb
    cases hkb
  · intro t ht
    ext k
    constructor
    · rintro ⟨hk, b, hkb⟩
      rw [hb, if_neg (by rw [hk]; exact ht)] at hkb
      exact ⟨hk, b, hkb⟩
    · rintro ⟨hk, b, hkb⟩
      refine ⟨hk, b, ?_⟩
      rw [hb, if_neg (by rw [hk]; exact ht)]
      exact hkb

end

theorem keys_entries (c : Coalescer C V) (s : Subscription) {l : List (BufKey C × Buffered C V)}
    (hl : l.Perm (c.subscription_entries s)) (k : BufKey C) :
    (if k ∈ l.map Prod.fst then none else c.buffer[k]?) =
      if k.1 = s then none else c.buffer[k]? := by
  have hm : k ∈ l.map Prod.fst ↔ k.1 = s ∧ ∃ b, c.buffer[k]? = some b := by
    rw [(hl.map Prod.fst).mem_iff]
    constructor
    · intro hk
      obtain ⟨e, he, rfl⟩ := List.mem_map.mp hk
      obtain ⟨h₁, h₂⟩ := mem_entries.mp he
      exact ⟨h₁, e.2, h₂⟩
    · rintro ⟨hk, b, hb⟩
      exact List.mem_map.mpr ⟨(k, b), mem_entries.mpr ⟨hk, hb⟩, rfl⟩
  by_cases hs : k.1 = s
  · rw [if_pos hs]
    cases hb : c.buffer[k]? with
    | none =>
      split
      · rfl
      · rfl
    | some b => rw [if_pos (hm.mpr ⟨hs, b, hb⟩)]
  · rw [if_neg hs, if_neg (fun hk => hs (hm.mp hk).1)]

/-- What a flush leaves in the buffer. -/
theorem Kept.flush_buffer (h : Kept last used c) (s : Subscription) (now : Instant)
    (k : BufKey C) : (c.flush_subscription s now).buffer[k]? =
      if k.1 = s then none else c.buffer[k]? := by
  have hb : Batch c ((c.subscription_entries s).insertionSort emission_le) :=
    (Batch.filter c fun entry => entry.1.1 = s).sort
  have ht := take_all _ c h.indexed hb
  rw [← keys_entries c s (List.perm_insertionSort emission_le _) k]
  exact ht.buffer k

theorem Kept.flush (h : Kept last used c) (hl : last ≤ now) (s : Subscription) :
    Kept now used (c.flush_subscription s now) ∧
      c.checked_flush s now = some (c.flush_subscription s now) := by
  have hbuf := h.flush_buffer s now
  obtain ⟨l, -, -, hi, -, hready, hp, hd⟩ := h.indexed.flush s now
  have hbatch : Batch c ((c.subscription_entries s).insertionSort emission_le) :=
    (Batch.filter c fun entry => entry.1.1 = s).sort
  constructor
  · refine h.fewer hi (h.cleared (s := s) ?_ hbuf) ?_ ?_ hd ?_ ?_
    · show (Std.ExtTreeMap.erase _ _) = _
      rw [take_all_per_sub]
    · intro k b hk
      rw [hbuf] at hk
      split at hk
      · cases hk
      · exact hk
    · intro k b _
      exact effective_policy_congr hp hd
    · intro r hr
      rw [hready, List.mem_append] at hr
      rcases hr with hr | hr
      · exact Nat.le_trans (h.ready r hr) hl
      · obtain ⟨e, -, rfl⟩ := List.mem_map.mp hr
        exact Nat.le_refl _
    · rw [hready, List.pairwise_append]
      refine ⟨h.queued, ?_, ?_⟩
      · rw [List.pairwise_map]
        exact List.pairwise_of_forall fun _ _ => Nat.le_refl _
      · intro a ha x hx
        obtain ⟨e, -, rfl⟩ := List.mem_map.mp hx
        exact Nat.le_trans (h.ready a ha) hl
  · unfold checked_flush
    dsimp only
    rw [checked_take_all _ c hbatch]
    show (if _ then _ else _) = _
    rw [if_pos]
    rw [h.per_sub, List.length_insertionSort]

theorem Kept.drop (h : Kept last used c) (s : Subscription) :
    Kept last used (c.drop_subscription s) ∧
      c.checked_drop s = some (c.drop_subscription s) ∧
      ∀ k : BufKey C, (c.drop_subscription s).buffer[k]? =
        if k.1 = s then none else c.buffer[k]? := by
  obtain ⟨hi, -, hready, hp, hd⟩ := h.indexed.drop s
  have hbatch : Batch c (c.subscription_entries s) := Batch.filter c fun entry => entry.1.1 = s
  have hbuf : ∀ k : BufKey C, (c.drop_subscription s).buffer[k]? =
      if k.1 = s then none else c.buffer[k]? := by
    intro k
    rw [← keys_entries c s (List.Perm.refl _) k]
    exact (take_all _ c h.indexed hbatch).buffer k
  refine ⟨?_, if_pos (h.per_sub s), hbuf⟩
  refine h.fewer hi (h.cleared (s := s) ?_ hbuf) ?_ ?_ hd ?_ ?_
  · show (Std.ExtTreeMap.erase _ _) = _
    rw [take_all_per_sub]
  · intro k b hk
    rw [hbuf] at hk
    split at hk
    · cases hk
    · exact hk
  · intro k b _
    exact effective_policy_congr hp hd
  · intro r hr
    rw [hready] at hr
    exact h.ready r (List.mem_of_mem_filter hr)
  · rw [hready]
    exact h.queued.sublist List.filter_sublist

/-! ### Drains -/

section
omit [TransOrd C] [LawfulEqOrd C] [DecidableEq C]

theorem dec_per_sub_len (c : Coalescer C V) (sub : Subscription) :
    (c.dec_per_sub sub).per_sub_len = match c.per_sub_len[sub]? with
      | some count =>
        if count - 1 = 0 then c.per_sub_len.erase sub else c.per_sub_len.insert sub (count - 1)
      | none => c.per_sub_len := by
  unfold dec_per_sub
  cases c.per_sub_len[sub]? with
  | none => rfl
  | some count =>
    dsimp only
    split
    · rfl
    · rfl

end

/-- One entry taken out, and its subscription's counter with it. -/
theorem took (h : Tally.Counts c.per_sub_len (members c)) (hb : c.buffer[key]? = some entry) :
    (c.take_entry key entry).checked_dec_per_sub key.1 =
        some ((c.take_entry key entry).dec_per_sub key.1) ∧
      Tally.Counts ((c.take_entry key entry).dec_per_sub key.1).per_sub_len
        (members ((c.take_entry key entry).dec_per_sub key.1)) := by
  have hmem : key ∈ members c key.1 := ⟨rfl, entry, hb⟩
  obtain ⟨per, hper⟩ := (c.take_entry key entry).dec_per_sub_eq key.1
  have hbuf : ∀ k : BufKey C, ((c.take_entry key entry).dec_per_sub key.1).buffer[k]? =
      if key = k then none else c.buffer[k]? := by
    intro k
    rw [hper]
    exact take_entry_buffer c key entry k
  constructor
  · have hpos : 0 < (members c key.1).ncard :=
      (Set.ncard_pos (h.finite key.1)).mpr ⟨key, hmem⟩
    have hcount : (c.take_entry key entry).per_sub_len[key.1]? =
        some (members c key.1).ncard := by
      show c.per_sub_len[key.1]? = _
      rw [h.count, if_neg (by omega)]
    unfold checked_dec_per_sub
    rw [hcount]
    exact if_neg (by omega)
  · rw [dec_per_sub_len]
    refine h.down hmem ?_ ?_
    · ext k
      constructor
      · rintro ⟨hk, b, hkb⟩
        rw [hbuf] at hkb
        split at hkb
        · cases hkb
        · rename_i hne
          exact ⟨⟨hk, b, hkb⟩, fun he => hne he.symm⟩
      · rintro ⟨⟨hk, b, hkb⟩, hne⟩
        refine ⟨hk, b, ?_⟩
        rw [hbuf, if_neg (fun he => hne he.symm)]
        exact hkb
    · intro t ht
      ext k
      have hne : k.1 = t → key ≠ k := by
        intro hk he
        rw [he] at ht
        exact ht hk.symm
      constructor
      · rintro ⟨hk, b, hkb⟩
        rw [hbuf, if_neg (hne hk)] at hkb
        exact ⟨hk, b, hkb⟩
      · rintro ⟨hk, b, hkb⟩
        refine ⟨hk, b, ?_⟩
        rw [hbuf, if_neg (hne hk)]
        exact hkb

/-- Releasing a batch finds every counter it decrements. -/
theorem checked_release_all (l : List (BufKey C × Buffered C V)) :
    ∀ (c : Coalescer C V) (out : List (Event C V)),
      Tally.Counts c.per_sub_len (members c) → Batch c l →
      ∃ r, l.foldlM (fun out entry => checked_release out entry.1) (out, c) = some r ∧
        l.foldlM (fun out entry => release out entry.1) (out, c) = some r ∧
        Tally.Counts r.2.per_sub_len (members r.2) := by
  induction l with
  | nil =>
    intro c out h _
    exact ⟨(out, c), rfl, rfl, h⟩
  | cons e l ih =>
    intro c out h hb
    have he := hb.held e List.mem_cons_self
    obtain ⟨hdec, hcounts⟩ := took h he
    obtain ⟨per, hper⟩ := (c.take_entry e.1 e.2).dec_per_sub_eq e.1.1
    have hb' : Batch ((c.take_entry e.1 e.2).dec_per_sub e.1.1) l := by
      rw [hper]
      exact hb.tail.congr rfl
    obtain ⟨r, h₁, h₂, h₃⟩ := ih _ (out ++ [e.2.event]) hcounts hb'
    have hchecked : checked_release (out, c) e.1 =
        some (out ++ [e.2.event], (c.take_entry e.1 e.2).dec_per_sub e.1.1) := by
      simp only [checked_release, he, Option.bind_some, hdec, Option.map_some]
    have hrelease : release (out, c) e.1 =
        some (out ++ [e.2.event], (c.take_entry e.1 e.2).dec_per_sub e.1.1) := by
      simp only [release, he, Option.map_some]
    refine ⟨r, ?_, ?_, h₃⟩
    · rw [List.foldlM_cons, hchecked]
      exact h₁
    · rw [List.foldlM_cons, hrelease]
      exact h₂

/-- What a drain at `now` hands out and leaves. -/
structure Drained (now : Instant) (c c' : Coalescer C V) (out : List (Event C V)) : Prop where
  /-- The ready queue, then the due entries in their order of emission. -/
  emitted : ∃ due : List (BufKey C × Buffered C V),
    (∀ k b, (k, b) ∈ due ↔ c.buffer[k]? = some b ∧ b.emit_at ≤ now) ∧
      (due.map Prod.fst).Nodup ∧ out = c.ready.map Prod.snd ++ due.map fun e => e.2.event
  left : ∀ (k : BufKey C) (b : Buffered C V),
    c'.buffer[k]? = some b ↔ c.buffer[k]? = some b ∧ now < b.emit_at
  ready : c'.ready = []

theorem Kept.drain (h : Kept last used c) (hl : last ≤ now) :
    ∃ out c', c.drain_ready now = some (out, c') ∧ c.checked_drain_ready now = some (out, c') ∧
      Kept now used c' ∧ Drained now c c' out := by
  have hr : ∀ r ∈ c.ready, r.1 ≤ now := fun r hm => Nat.le_trans (h.ready r hm) hl
  obtain ⟨l, c', hdrain, hbatch, ht, hdue, hfold, read, hread, rfl⟩ := h.indexed.drain_exact hr
  have hcounts : Tally.Counts ({ c with ready := [] } : Coalescer C V).per_sub_len
      (members { c with ready := [] }) := h.counts
  obtain ⟨r, hchecked, hplain, hcounts'⟩ :=
    checked_release_all _ { c with ready := [] } (c.ready.map Prod.snd) hcounts (hbatch.congr rfl)
  obtain rfl := Option.some.inj (hplain.symm.trans hfold)
  have hleft : ∀ (k : BufKey C) (b : Buffered C V),
      c'.buffer[k]? = some b ↔ c.buffer[k]? = some b ∧ now < b.emit_at := by
    intro k b
    rw [ht.buffer]
    show (if _ then none else c.buffer[k]?) = _ ↔ _
    constructor
    · intro hb
      split at hb
      · cases hb
      · rename_i hk
        refine ⟨hb, Nat.lt_of_not_le fun hle => hk ?_⟩
        exact List.mem_map.mpr ⟨(k, b), (hdue k b).mpr ⟨hb, hle⟩, rfl⟩
    · rintro ⟨hb, hlt⟩
      rw [if_neg]
      · exact hb
      · intro hk
        obtain ⟨⟨k', b'⟩, hm, rfl⟩ := List.mem_map.mp hk
        obtain ⟨hb', hle⟩ := (hdue k' b').mp hm
        rw [Option.some.inj (hb.symm.trans hb')] at hlt
        exact absurd hle (Nat.not_le.mpr hlt)
  have hready : c'.ready = [] := ht.ready
  refine ⟨_, c', hdrain, ?_, ?_, ⟨⟨_, hdue, hbatch.nodup, rfl⟩, hleft, hready⟩⟩
  · have htake : c.ready.takeWhile (fun r => r.1 ≤ now) = c.ready := by
      rw [List.takeWhile_eq_self_iff]
      intro r hm
      exact decide_eq_true (hr r hm)
    have hdrop : c.ready.dropWhile (fun r => r.1 ≤ now) = [] := by
      rw [List.dropWhile_eq_nil_iff]
      intro r hm
      exact decide_eq_true (hr r hm)
    unfold checked_drain_ready
    rw [htake, hdrop]
    refine (congrArg (fun due => Option.bind due _) hread).trans ?_
    refine (congrArg (fun r => Option.bind r _) hchecked).trans ?_
    exact if_pos ht.indexed.check
  · refine h.fewer ht.indexed hcounts' (fun k b hb => ((hleft k b).mp hb).1) ?_ ht.default ?_ ?_
    · intro k b _
      exact effective_policy_congr ht.policies ht.default
    · intro r hr
      rw [hready] at hr
      cases hr
    · rw [hready]
      exact List.Pairwise.nil

/-! ### Admissions -/

/-- No deadline is past the hold cap the platform can represent. -/
theorem deadline_le {first_seen quiet_window max_hold : Nat}
    (h : first_seen + max_hold ≤ instant_max) :
    deadline first_seen now quiet_window max_hold far ≤ first_seen + max_hold := by
  unfold deadline checked_add
  rw [if_pos h]
  exact Nat.min_le_right _ _

section
omit [LawfulEqOrd C] [DecidableEq C]

/-- Folding a change into the entry of its slot keeps the burst's beginning. -/
theorem fold_entry (c : Coalescer C V) (ev : Event C V) (now far : Instant)
    (config : DebounceConfig) (seq : Nat) (b : Buffered C V) :
    (collapse b.event.kind ev.kind = .annihilate ∧ c.fold_burst ev now far config seq b =
      (c.take_entry (ev.subscription, ev.key) b).dec_per_sub ev.subscription) ∨
    (collapse b.event.kind ev.kind ≠ .annihilate ∧ ∃ b' : Buffered C V,
      (c.fold_burst ev now far config seq b).buffer = c.buffer.insert ev.slot b' ∧
        b'.first_seen = b.first_seen ∧
        b'.emit_at = deadline b.first_seen now config.quiet_window config.max_hold far ∧
        (c.fold_burst ev now far config seq b).per_sub_len = c.per_sub_len) := by
  unfold fold_burst
  dsimp only
  split
  · rename_i hc
    exact .inr ⟨by rw [hc]; decide, _, rfl, rfl, rfl, rfl⟩
  · rename_i hc
    exact .inr ⟨by rw [hc]; decide, _, rfl, rfl, rfl, rfl⟩
  · rename_i hc
    exact .inr ⟨by rw [hc]; decide, _, rfl, rfl, rfl, rfl⟩
  · rename_i hc
    exact .inl ⟨hc, rfl⟩

/-- The first change of a burst is refused at a cap, or filed under both. -/
theorem open_entry (c : Coalescer C V) (ev : Event C V) (now far : Instant)
    (config : DebounceConfig) (seq : Nat) :
    c.open_burst ev now far config seq = (some ev.subscription, c) ∨
    ∃ (c' : Coalescer C V) (b' : Buffered C V),
      c.open_burst ev now far config seq = (none, c') ∧ c'.buffer = c.buffer.insert ev.slot b' ∧
        b'.first_seen = now ∧
        b'.emit_at = deadline now now config.quiet_window config.max_hold far ∧
        c'.per_sub_len = c.per_sub_len.insert ev.subscription (c.per_sub ev.subscription + 1) ∧
        c.buffer.size < c.structural_cap ∧ c.per_sub ev.subscription < config.max_buffered := by
  unfold open_burst
  dsimp only
  split
  · exact .inl rfl
  · rename_i hcap
    split
    · exact .inl rfl
    · rename_i hsub
      exact .inr ⟨_, _, rfl, rfl, rfl, rfl, rfl, Nat.not_le.mp hcap, Nat.not_le.mp hsub⟩

end

/-- One entry filed, under the policy of its subscription. -/
theorem Kept.file {config : DebounceConfig} (h : Kept last used c) (hi : Indexed c')
    (hcounts : Tally.Counts c'.per_sub_len (members c'))
    (hb : c'.buffer = c.buffer.insert ev.slot b) (hr : c'.ready = c.ready)
    (hp : c'.policies = c.policies) (hd : c'.default = c.default)
    (hpolicy : c.effective_policy ev.subscription = some config)
    (hhold : b.first_seen + config.max_hold ≤ instant_max →
      b.emit_at ≤ b.first_seen + config.max_hold)
    (hcap : c'.buffer.size ≤ c.structural_cap)
    (hsub : (members c' ev.subscription).ncard ≤ config.max_buffered) (hl : last ≤ now) :
    Kept now (insert ev.subscription used) c' where
  indexed := hi
  counts := hcounts
  cap := by
    have he : c'.structural_cap = c.structural_cap := by
      unfold structural_cap
      rw [hd]
    rw [he]
    exact hcap
  used k b' hk := by
    rw [hb, get_insert] at hk
    split at hk
    · rename_i he
      rw [← he]
      exact Set.mem_insert _ _
    · exact Set.mem_insert_of_mem _ (h.used k b' hk)
  settling k b' hk := by
    rw [hb, get_insert] at hk
    have he : c'.effective_policy k.1 = c.effective_policy k.1 := effective_policy_congr hp hd
    split at hk
    · rename_i hslot
      obtain rfl := Option.some.inj hk
      rw [← hslot]
      rw [← hslot] at he
      exact ⟨config, he.trans hpolicy, hsub, hhold⟩
    · obtain ⟨config', hs⟩ := h.settling k b' hk
      refine ⟨config', he.trans hs.policy, ?_, hs.hold⟩
      by_cases hks : k.1 = ev.subscription
      · rw [hks]
        have hpol := hs.policy
        rw [hks, hpolicy] at hpol
        rw [← Option.some.inj hpol]
        exact hsub
      · have hm : members c' k.1 = members c k.1 := by
          ext x
          constructor
          · rintro ⟨hx, y, hy⟩
            rw [hb, get_insert, if_neg] at hy
            · exact ⟨hx, y, hy⟩
            · intro hne
              rw [← hne] at hx
              exact hks hx.symm
          · rintro ⟨hx, y, hy⟩
            refine ⟨hx, y, ?_⟩
            rw [hb, get_insert, if_neg]
            · exact hy
            · intro hne
              rw [← hne] at hx
              exact hks hx.symm
        rw [hm]
        exact hs.cap
  ready r hm := by
    rw [hr] at hm
    exact Nat.le_trans (h.ready r hm) hl
  queued := by
    rw [hr]
    exact h.queued

section
omit [LawfulEqOrd C] [DecidableEq C]

theorem Kept.later (h : Kept last used c) (hl : last ≤ now) (s : Subscription) :
    Kept now (insert s used) c where
  indexed := h.indexed
  counts := h.counts
  cap := h.cap
  used k b hb := Set.mem_insert_of_mem _ (h.used k b hb)
  settling := h.settling
  ready r hr := Nat.le_trans (h.ready r hr) hl
  queued := h.queued

theorem Kept.numbered (h : Kept last used c) (n : Nat) :
    Kept last used { c with next_seq := n } where
  indexed := h.indexed.congr rfl rfl
  counts := h.counts
  cap := h.cap
  used := h.used
  settling k b hb := by
    obtain ⟨config, hs⟩ := h.settling k b hb
    exact ⟨config, hs.policy, hs.cap, hs.hold⟩
  ready := h.ready
  queued := h.queued

theorem Kept.push (h : Kept last used c) (hl : last ≤ now) (ev : Event C V) :
    Kept now used (c.push_ready now ev) where
  indexed := h.indexed.congr rfl rfl
  counts := h.counts
  cap := h.cap
  used := h.used
  settling k b hb := by
    obtain ⟨config, hs⟩ := h.settling k b hb
    exact ⟨config, hs.policy, hs.cap, hs.hold⟩
  ready r hr := by
    rcases List.mem_append.mp hr with hr | hr
    · exact Nat.le_trans (h.ready r hr) hl
    · rw [List.mem_singleton.mp hr]
  queued := by
    refine List.pairwise_append.mpr ⟨h.queued, List.pairwise_singleton _ _, ?_⟩
    intro a ha x hx
    rw [List.mem_singleton.mp hx]
    exact Nat.le_trans (h.ready a ha) hl

end

/-- What an admission keeps, leaves of a burst's beginning, and refuses. -/
structure Admitted (now : Instant) (used : Set Subscription) (c c' : Coalescer C V)
    (ev : Event C V) (r : Option Subscription) : Prop where
  kept : Kept now (insert ev.subscription used) c'
  first_seen : ∀ (k : BufKey C) (b b' : Buffered C V), c.buffer[k]? = some b →
    c'.buffer[k]? = some b' → b'.first_seen = b.first_seen
  refused : ∀ s, r = some s → s = ev.subscription ∧ c' = { c with next_seq := c.next_seq + 1 }

theorem Kept.fold {config : DebounceConfig} (h : Kept last used c) (hl : last ≤ now)
    (hpolicy : c.effective_policy ev.subscription = some config)
    (hb : c.buffer[ev.slot]? = some b) (seq : Nat) (far : Instant) :
    Kept now (insert ev.subscription used) (c.fold_burst ev now far config seq b) ∧
      ∀ (k : BufKey C) (x x' : Buffered C V), c.buffer[k]? = some x →
        (c.fold_burst ev now far config seq b).buffer[k]? = some x' →
          x'.first_seen = x.first_seen := by
  obtain ⟨hi, hready, hp, hd, -⟩ := h.indexed.fold now far config seq hb
  rcases fold_entry c ev now far config seq b with ⟨-, he⟩ | ⟨-, b', hbuf, hfirst, hemit, hlen⟩
  · have hkey : c.buffer[((ev.subscription, ev.key) : BufKey C)]? = some b := hb
    obtain ⟨per, hper⟩ := (c.take_entry (ev.subscription, ev.key) b).dec_per_sub_eq ev.subscription
    have hleft : ∀ k : BufKey C, (c.fold_burst ev now far config seq b).buffer[k]? =
        if ev.slot = k then none else c.buffer[k]? := by
      intro k
      rw [he, hper]
      exact take_entry_buffer c _ b k
    have hsub : ∀ (k : BufKey C) (x : Buffered C V),
        (c.fold_burst ev now far config seq b).buffer[k]? = some x → c.buffer[k]? = some x := by
      intro k x hx
      rw [hleft] at hx
      split at hx
      · cases hx
      · exact hx
    constructor
    · refine ((h.later hl ev.subscription).fewer hi ?_ hsub ?_ hd ?_ ?_)
      · rw [he]
        exact (took h.counts hkey).2
      · intro k x _
        exact effective_policy_congr hp hd
      · rw [hready]
        exact fun r hr => Nat.le_trans (h.ready r hr) hl
      · rw [hready]
        exact h.queued
    · intro k x x' hx hx'
      rw [Option.some.inj ((hsub k x' hx').symm.trans hx)]
  · obtain ⟨config', hs⟩ := h.settling _ _ hb
    have hconfig : config' = config := by
      have hpol : c.effective_policy ev.subscription = some config' := hs.policy
      exact Option.some.inj (hpol.symm.trans hpolicy)
    have hmem : members (c.fold_burst ev now far config seq b) = members c := by
      funext t
      ext k
      have hk : (∃ x, (c.fold_burst ev now far config seq b).buffer[k]? = some x) ↔
          ∃ x, c.buffer[k]? = some x := by
        rw [hbuf, get_insert]
        split
        · rename_i hslot
          rw [← hslot]
          exact ⟨fun _ => ⟨b, hb⟩, fun _ => ⟨b', rfl⟩⟩
        · exact Iff.rfl
      exact and_congr_right fun _ => hk
    constructor
    · refine h.file hi ?_ hbuf hready hp hd hpolicy ?_ ?_ ?_ hl
      · rw [hlen, hmem]
        exact h.counts
      · intro hrep
        rw [hfirst] at hrep ⊢
        rw [hemit]
        exact deadline_le hrep
      · refine Nat.le_trans (size_le_of_sub (c := c) ?_) h.cap
        intro k x hx
        rw [hbuf, get_insert] at hx
        split at hx
        · rename_i hslot
          rw [← hslot]
          exact ⟨b, hb⟩
        · exact ⟨x, hx⟩
      · rw [hmem, ← hconfig]
        exact hs.cap
    · intro k x x' hx hx'
      rw [hbuf, get_insert] at hx'
      split at hx'
      · rename_i hslot
        rw [← hslot, hb] at hx
        rw [← Option.some.inj hx', ← Option.some.inj hx]
        exact hfirst
      · rw [Option.some.inj (hx'.symm.trans hx)]

/-- The first change of a burst, filed within both caps. -/
theorem Kept.opened {config : DebounceConfig} (h : Kept last used c) (hl : last ≤ now)
    (hpolicy : c.effective_policy ev.subscription = some config)
    (hb : c.buffer[ev.slot]? = none) (seq : Nat) {r : Option Subscription}
    (ho : c.open_burst ev now far config seq = (r, c')) :
    (r = some ev.subscription ∧ c' = c) ∨
      (r = none ∧ Kept now (insert ev.subscription used) c' ∧
        ∃ b' : Buffered C V, c'.buffer = c.buffer.insert ev.slot b') := by
  rcases open_entry c ev now far config seq with he | ⟨c₁, b', he, hbuf, hfirst, hemit, hlen, hroom, hsub⟩
  · obtain ⟨rfl, rfl⟩ := Prod.mk.inj (he.symm.trans ho)
    exact .inl ⟨rfl, rfl⟩
  · obtain ⟨rfl, rfl⟩ := Prod.mk.inj (he.symm.trans ho)
    rcases h.indexed.opened hb ho with ⟨hn, -⟩ | ⟨-, hi, hready, hp, hd, -⟩
    · cases hn
    · refine .inr ⟨rfl, ?_, b', hbuf⟩
      have hnot : ev.slot ∉ members c ev.subscription := by
        rintro ⟨-, x, hx⟩
        rw [hb] at hx
        cases hx
      have hself : members c₁ ev.subscription = insert ev.slot (members c ev.subscription) := by
        ext k
        constructor
        · rintro ⟨hk, x, hx⟩
          rw [hbuf, get_insert] at hx
          split at hx
          · rename_i hslot
            rw [← hslot]
            exact Set.mem_insert _ _
          · exact Set.mem_insert_of_mem _ ⟨hk, x, hx⟩
        · rintro (rfl | ⟨hk, x, hx⟩)
          · refine ⟨rfl, b', ?_⟩
            rw [hbuf, get_insert, if_pos rfl]
          · refine ⟨hk, ?_⟩
            rw [hbuf, get_insert]
            split
            · exact ⟨b', rfl⟩
            · exact ⟨x, hx⟩
      have hother : ∀ t, t ≠ ev.subscription → members c₁ t = members c t := by
        intro t ht
        ext k
        have hne : k.1 = t → ev.slot ≠ k := by
          intro hk he
          rw [← he] at hk
          exact ht hk.symm
        constructor
        · rintro ⟨hk, x, hx⟩
          rw [hbuf, get_insert, if_neg (hne hk)] at hx
          exact ⟨hk, x, hx⟩
        · rintro ⟨hk, x, hx⟩
          refine ⟨hk, x, ?_⟩
          rw [hbuf, get_insert, if_neg (hne hk)]
          exact hx
      refine h.file hi ?_ hbuf hready hp hd hpolicy ?_ ?_ ?_ hl
      · rw [hlen]
        exact h.counts.up hnot hself hother
      · intro hrep
        rw [hfirst] at hrep ⊢
        rw [hemit]
        exact deadline_le hrep
      · have hle : c₁.buffer.size ≤ c.buffer.size + 1 := by
          rw [hbuf]
          exact ExtTreeMap.size_insert_le
        omega
      · rw [hself, Set.ncard_insert_of_notMem hnot (h.counts.finite _)]
        have hcount : c.per_sub ev.subscription = (members c ev.subscription).ncard :=
          h.counts.getD ev.subscription
        omega

theorem Kept.coalesce {config : DebounceConfig} (h : Kept last used c) (hl : last ≤ now)
    (hpolicy : c.effective_policy ev.subscription = some config) (far : Instant) :
    ∃ r c', c.coalesce ev now far config = (r, c') ∧
      c.checked_coalesce ev now far config = some (r, c') ∧ Admitted now used c c' ev r := by
  have hn := h.numbered (c.next_seq + 1)
  have hpol : ({ c with next_seq := c.next_seq + 1 } : Coalescer C V).effective_policy
      ev.subscription = some config := hpolicy
  cases hb : c.buffer[ev.slot]? with
  | none =>
    have hslot : c.buffer[((ev.subscription, ev.key) : BufKey C)]? = none := hb
    cases ho : ({ c with next_seq := c.next_seq + 1 } : Coalescer C V).open_burst ev now far config
        c.next_seq with
    | mk r c' =>
      have hc : c.coalesce ev now far config = (r, c') := by
        unfold Coalescer.coalesce
        dsimp only
        rw [hslot]
        exact ho
      refine ⟨r, c', hc, ?_, ?_⟩
      · unfold checked_coalesce
        rw [hslot]
        exact congrArg some hc
      · rcases hn.opened hl hpol hb c.next_seq ho with ⟨rfl, rfl⟩ | ⟨rfl, hk, b', hbuf⟩
        · refine ⟨(hn.later hl _), ?_, ?_⟩
          · intro k x x' hx hx'
            rw [Option.some.inj (hx'.symm.trans hx)]
          · intro s hs
            exact ⟨(Option.some.inj hs).symm, rfl⟩
        · refine ⟨hk, ?_, nofun⟩
          intro k x x' hx hx'
          rw [hbuf] at hx'
          have hx' : (c.buffer.insert ev.slot b')[k]? = some x' := hx'
          rw [get_insert] at hx'
          split at hx'
          · rename_i hs
            rw [← hs, hb] at hx
            cases hx
          · rw [Option.some.inj (hx'.symm.trans hx)]
  | some b =>
    have hslot : c.buffer[((ev.subscription, ev.key) : BufKey C)]? = some b := hb
    have hc : c.coalesce ev now far config =
        (none, ({ c with next_seq := c.next_seq + 1 } : Coalescer C V).fold_burst ev now far config
          c.next_seq b) := by
      unfold Coalescer.coalesce
      dsimp only
      rw [hslot]
    obtain ⟨hk, hfirst⟩ := hn.fold hl hpol hb c.next_seq far
    refine ⟨_, _, hc, ?_, hk, hfirst, nofun⟩
    unfold checked_coalesce
    rw [hslot]
    dsimp only
    rcases fold_entry { c with next_seq := c.next_seq + 1 } ev now far config c.next_seq b with
      ⟨ha, he⟩ | ⟨ha, -⟩
    · rw [ha, he]
      dsimp only
      rw [(took hn.counts hslot).1]
      rfl
    · split
      · rename_i hn
        exact absurd hn ha
      · exact congrArg some hc

section
omit [LawfulEqOrd C] [DecidableEq C]

theorem checked_admit_flushes {ev : Event C V} {far : Instant}
    (hk : ev.kind.is_lifecycle = false) :
    c.checked_admit_event ev now far =
      (c.checked_flush ev.subscription now).map fun c => (none, c.push_ready now ev) := by
  unfold checked_admit_event
  cases hkind : ev.kind with
  | rescan => rfl
  | moved source => rfl
  | _ =>
    rw [hkind] at hk
    cases hk

theorem checked_admit_immediate {ev : Event C V} {far : Instant}
    (hk : ev.kind.is_lifecycle = true) (hp : c.effective_policy ev.subscription = none) :
    c.checked_admit_event ev now far = some (none, c.push_ready now ev) := by
  unfold checked_admit_event
  rw [hp]
  cases hkind : ev.kind with
  | rescan =>
    rw [hkind] at hk
    cases hk
  | moved source =>
    rw [hkind] at hk
    cases hk
  | _ => rfl

theorem checked_admit_coalesced {ev : Event C V} {far : Instant} {config : DebounceConfig}
    (hk : ev.kind.is_lifecycle = true) (hp : c.effective_policy ev.subscription = some config) :
    c.checked_admit_event ev now far = c.checked_coalesce ev now far config := by
  unfold checked_admit_event
  rw [hp]
  cases hkind : ev.kind with
  | rescan =>
    rw [hkind] at hk
    cases hk
  | moved source =>
    rw [hkind] at hk
    cases hk
  | _ => rfl

end

theorem Kept.admit (h : Kept last used c) (hl : last ≤ now) (ev : Event C V) (far : Instant) :
    ∃ r c', c.admit_event ev now far = (r, c') ∧ c.checked_admit_event ev now far = some (r, c') ∧
      Admitted now used c c' ev r := by
  cases hk : ev.kind.is_lifecycle with
  | false =>
    -- a flush and the event behind it
    obtain ⟨hf, hc⟩ := h.flush hl ev.subscription
    refine ⟨_, _, admit_event_flushes hk, ?_,
      (hf.push (Nat.le_refl _) ev).later (Nat.le_refl _) _, ?_, nofun⟩
    · rw [checked_admit_flushes hk, hc]
      rfl
    · intro k x x' hx hx'
      have hx' : (c.flush_subscription ev.subscription now).buffer[k]? = some x' := hx'
      rw [h.flush_buffer] at hx'
      split at hx'
      · cases hx'
      · rw [Option.some.inj (hx'.symm.trans hx)]
  | true =>
    -- a change under its policy
    cases hp : c.effective_policy ev.subscription with
    | none =>
      refine ⟨_, _, admit_event_immediate hk hp, checked_admit_immediate hk hp,
        (h.push hl ev).later (Nat.le_refl _) _, ?_, nofun⟩
      intro k x x' hx hx'
      have hx' : c.buffer[k]? = some x' := hx'
      rw [Option.some.inj (hx'.symm.trans hx)]
    | some config =>
      obtain ⟨r, c', hc, hcc, ha⟩ := h.coalesce hl hp far
      exact ⟨r, c', (admit_event_coalesced hk hp).trans hc,
        (checked_admit_coalesced hk hp).trans hcc, ha⟩

/-! ### Calls and runs -/

section
omit [DecidableEq C]

theorem Kept.set_policy (h : Kept last used c) (hs : s ∉ used) (policy : Debounce) :
    Kept last used (c.set_policy s policy) := by
  have heq : ∃ policies, c.set_policy s policy = { c with policies } ∧
      ∀ t, t ≠ s → policies[t]? = c.policies[t]? := by
    cases policy with
    | inherit =>
      refine ⟨_, rfl, fun t ht => ?_⟩
      rw [get_erase, if_neg (Ne.symm ht)]
    | off =>
      refine ⟨_, rfl, fun t ht => ?_⟩
      rw [get_insert, if_neg (Ne.symm ht)]
    | custom config =>
      refine ⟨_, rfl, fun t ht => ?_⟩
      rw [get_insert, if_neg (Ne.symm ht)]
  obtain ⟨policies, he, hp⟩ := heq
  rw [he]
  have hi : Indexed ({ c with policies } : Coalescer C V) := h.indexed.congr rfl rfl
  refine h.fewer hi h.counts (fun _ _ hb => hb) ?_ rfl h.ready h.queued
  intro k b hb
  have hne : k.1 ≠ s := fun hk => hs (hk ▸ h.used k b hb)
  unfold effective_policy
  dsimp only
  rw [hp _ hne]

end

theorem Kept.forget (h : Kept last used c) (s : Subscription) :
    Kept last used (c.forget_subscription s) := by
  obtain ⟨hk, -, hbuf⟩ := h.drop s
  have hi : Indexed (c.forget_subscription s) := hk.indexed.congr rfl rfl
  refine hk.fewer hi hk.counts (fun _ _ hb => hb) ?_ rfl hk.ready hk.queued
  intro k b hb
  have hb : (c.drop_subscription s).buffer[k]? = some b := hb
  rw [hbuf] at hb
  split at hb
  · cases hb
  · rename_i hne
    unfold effective_policy forget_subscription
    dsimp only
    rw [get_erase, if_neg (Ne.symm hne)]

section
omit [DecidableEq C]

theorem Kept.flush_all (h : Kept last used c) : Kept last used c.flush_all.2 := by
  have hempty : ∀ (k : BufKey C) (b : Buffered C V), c.flush_all.2.buffer[k]? ≠ some b := by
    intro k b hb
    simp [Coalescer.flush_all] at hb
  have hi : Indexed c.flush_all.2 := (Indexed.new none ∅).congr rfl rfl
  refine h.fewer hi ?_ (fun k b hb => absurd hb (hempty k b)) ?_ rfl
    (fun r hr => absurd hr List.not_mem_nil) List.Pairwise.nil
  · refine Tally.empty.congr fun s => Set.eq_empty_of_forall_notMem ?_
    rintro k ⟨-, b, hb⟩
    exact hempty k b hb
  · intro k b hb
    exact absurd hb (hempty k b)

end

end Coalescer

/-- The subscription a call admits an event of. -/
def Op.uses : Op C V → Set Subscription
  | .admit_event ev _ _ => {ev.subscription}
  | _ => ∅

/-- A policy is set before its subscription's first event. -/
def Registered (used : Set Subscription) : List (Op C V) → Prop
  | [] => True
  | op :: ops =>
    (∀ s policy, op = .set_policy s policy → s ∉ used) ∧ Registered (used ∪ op.uses) ops

namespace Coalescer

variable {c : Coalescer C V} {last : Instant} {used : Set Subscription}

/-- One call keeps the books, and a debug build's checks pass. -/
theorem Kept.step {op : Op C V} (h : Kept last used c) (ht : last ≤ op.now.getD last)
    (hp : ∀ s policy, op = .set_policy s policy → s ∉ used) :
    ∃ c' obs, c.step op = some (c', obs) ∧ c.checked_step op = some (c', obs) ∧
      Kept (op.now.getD last) (used ∪ op.uses) c' ∧
      ∀ (k : BufKey C) (b b' : Buffered C V), c.buffer[k]? = some b → c'.buffer[k]? = some b' →
        b'.first_seen = b.first_seen := by
  -- a call that leaves of each slot what it held or nothing
  have kept_first : ∀ c' : Coalescer C V,
      (∀ (k : BufKey C) (b : Buffered C V), c'.buffer[k]? = some b → c.buffer[k]? = some b) →
      ∀ (k : BufKey C) (b b' : Buffered C V), c.buffer[k]? = some b → c'.buffer[k]? = some b' →
        b'.first_seen = b.first_seen := by
    intro c' hsub k b b' hb hb'
    rw [Option.some.inj ((hsub k b' hb').symm.trans hb)]
  have unused : used ∪ ∅ = used := Set.union_empty used
  cases op with
  | admit_event ev now far =>
    have ht : last ≤ now := ht
    obtain ⟨r, c', hc, hcc, ha⟩ := h.admit ht ev far
    have hused : used ∪ Op.uses (.admit_event ev now far) = insert ev.subscription used :=
      Set.union_singleton
    cases r with
    | none =>
      refine ⟨c', [.accepted ev], ?_, ?_, ?_, ha.first_seen⟩
      · simp only [Coalescer.step, hc]
      · simp only [checked_step, hcc, Option.map_some]
      · rw [hused]
        exact ha.kept
    | some s =>
      refine ⟨c', [], ?_, ?_, ?_, ha.first_seen⟩
      · simp only [Coalescer.step, hc]
      · simp only [checked_step, hcc, Option.map_some]
      · rw [hused]
        exact ha.kept
  | drain_ready now =>
    have ht : last ≤ now := ht
    obtain ⟨out, c', hd, hc, hk, hdrained⟩ := h.drain ht
    refine ⟨c', out.map .emitted, ?_, ?_, ?_, ?_⟩
    · simp only [Coalescer.step, hd, Option.map_some]
    · simp only [checked_step, hc, Option.map_some]
    · exact unused.symm ▸ hk
    · exact kept_first c' fun k b hb => ((hdrained.left k b).mp hb).1
  | flush_all =>
    refine ⟨_, _, rfl, rfl, unused.symm ▸ h.flush_all, kept_first _ ?_⟩
    intro k b hb
    simp [Coalescer.flush_all] at hb
  | set_policy s policy =>
    refine ⟨_, _, rfl, rfl, unused.symm ▸ h.set_policy (hp s policy rfl) policy, kept_first _ ?_⟩
    intro k b hb
    cases policy <;> exact hb
  | flush_subscription s now =>
    have ht : last ≤ now := ht
    obtain ⟨hk, hc⟩ := h.flush ht s
    refine ⟨_, [], rfl, ?_, unused.symm ▸ hk, kept_first _ ?_⟩
    · simp only [checked_step, hc, Option.map_some]
    · intro k b hb
      rw [h.flush_buffer] at hb
      split at hb
      · cases hb
      · exact hb
  | drop_subscription s =>
    obtain ⟨hk, hc, hbuf⟩ := h.drop s
    refine ⟨_, [], rfl, ?_, unused.symm ▸ hk, kept_first _ ?_⟩
    · simp only [checked_step, hc, Option.map_some]
    · intro k b hb
      rw [hbuf] at hb
      split at hb
      · cases hb
      · exact hb
  | forget_subscription s =>
    obtain ⟨-, hc, hbuf⟩ := h.drop s
    refine ⟨_, [], rfl, ?_, unused.symm ▸ h.forget s, kept_first _ ?_⟩
    · simp only [checked_step, hc, Option.map_some]
      rfl
    · intro k b hb
      have hb : (c.drop_subscription s).buffer[k]? = some b := hb
      rw [hbuf] at hb
      split at hb
      · cases hb
      · exact hb

/-- A run as a debug build makes it. -/
def checked_run (c : Coalescer C V) : List (Op C V) → Option (Coalescer C V × List (Obs C V))
  | [] => some (c, [])
  | op :: ops =>
    (c.checked_step op).bind fun r => (r.1.checked_run ops).map fun r' => (r'.1, r.2 ++ r'.2)

/-- The clock at the end of some calls. -/
def clock : Instant → List (Op C V) → Instant
  | last, [] => last
  | last, op :: ops => clock (op.now.getD last) ops

/-! ### The books of a run -/

/-- Something is pending at an instant. -/
def Due (c : Coalescer C V) (due : Instant) : Prop :=
  (∃ (k : BufKey C) (b : Buffered C V), c.buffer[k]? = some b ∧ b.emit_at = due) ∨
    ∃ r ∈ c.ready, r.1 = due

/-- The next deadline is the earliest pending one. -/
def NextDue (c : Coalescer C V) : Option Instant → Prop
  | none => ∀ due, ¬ c.Due due
  | some due => c.Due due ∧ ∀ due', c.Due due' → due ≤ due'

section
omit [DecidableEq C]

theorem Kept.next_due (h : Kept last used c) : NextDue c c.next_deadline := by
  -- the index's first deadline is the least, and so is the queue's
  have hbuf : ∀ (k : BufKey C) (b : Buffered C V), c.buffer[k]? = some b →
      ∃ d, c.deadlines.toList.head?.map Prod.fst = some d ∧ d ≤ b.emit_at := by
    intro k b hb
    have hm := ExtTreeSet.mem_toList.mpr ((h.indexed.named b.emit_at k).mpr ⟨b, hb, rfl⟩)
    have ho := c.deadlines.ordered_toList
    cases hl : c.deadlines.toList with
    | nil =>
      rw [hl] at hm
      cases hm
    | cons d l =>
      rw [hl] at hm ho
      refine ⟨d.1, rfl, ?_⟩
      rcases List.mem_cons.mp hm with he | hm
      · exact Nat.le_of_eq (congrArg Prod.fst he).symm
      · have hlt : compareLex (compareOn Prod.fst) (compareOn Prod.snd) d (b.emit_at, k) = .lt :=
          (List.pairwise_cons.mp ho).1 _ hm
        simp only [compareLex, compareOn, Ordering.then_eq_lt] at hlt
        apply Nat.isLE_compare.mp
        rcases hlt with hlt | ⟨heq, -⟩
        · rw [hlt]
          rfl
        · rw [heq]
          rfl
  have hhead : ∀ d, c.deadlines.toList.head?.map Prod.fst = some d → c.Due d := by
    intro d hd
    obtain ⟨⟨due, k⟩, hk, rfl⟩ := Option.map_eq_some_iff.mp hd
    obtain ⟨b, hb, he⟩ := (h.indexed.named due k).mp
      (ExtTreeSet.mem_toList.mp (List.mem_of_mem_head? hk))
    exact .inl ⟨k, b, hb, he⟩
  have hready : ∀ r ∈ c.ready, ∃ d, c.ready.head?.map Prod.fst = some d ∧ d ≤ r.1 := by
    intro r hr
    have ho := h.queued
    cases hl : c.ready with
    | nil =>
      rw [hl] at hr
      cases hr
    | cons a l =>
      rw [hl] at hr ho
      refine ⟨a.1, rfl, ?_⟩
      rcases List.mem_cons.mp hr with rfl | hr
      · exact Nat.le_refl _
      · exact (List.pairwise_cons.mp ho).1 r hr
  have hfront : ∀ d, c.ready.head?.map Prod.fst = some d → c.Due d := by
    intro d hd
    obtain ⟨r, hr, rfl⟩ := Option.map_eq_some_iff.mp hd
    exact .inr ⟨r, List.mem_of_mem_head? hr, rfl⟩
  unfold next_deadline
  cases hi : c.deadlines.toList.head?.map Prod.fst with
  | none =>
    cases hq : c.ready.head?.map Prod.fst with
    | none =>
      rintro due (⟨k, b, hb, -⟩ | ⟨r, hr, -⟩)
      · obtain ⟨d, hd, -⟩ := hbuf k b hb
        cases hi.symm.trans hd
      · obtain ⟨d, hd, -⟩ := hready r hr
        cases hq.symm.trans hd
    | some q =>
      refine ⟨hfront q hq, ?_⟩
      rintro due (⟨k, b, hb, -⟩ | ⟨r, hr, rfl⟩)
      · obtain ⟨d, hd, -⟩ := hbuf k b hb
        cases hi.symm.trans hd
      · obtain ⟨d, hd, hle⟩ := hready r hr
        rw [Option.some.inj (hq.symm.trans hd)]
        exact hle
  | some i =>
    cases hq : c.ready.head?.map Prod.fst with
    | none =>
      refine ⟨hhead i hi, ?_⟩
      rintro due (⟨k, b, hb, rfl⟩ | ⟨r, hr, -⟩)
      · obtain ⟨d, hd, hle⟩ := hbuf k b hb
        rw [Option.some.inj (hi.symm.trans hd)]
        exact hle
      · obtain ⟨d, hd, -⟩ := hready r hr
        cases hq.symm.trans hd
    | some q =>
      constructor
      · rcases Nat.le_total i q with hle | hle
        · have hmin : Nat.min i q = i := Nat.min_eq_left hle
          show c.Due (Nat.min i q)
          rw [hmin]
          exact hhead i hi
        · have hmin : Nat.min i q = q := Nat.min_eq_right hle
          show c.Due (Nat.min i q)
          rw [hmin]
          exact hfront q hq
      · rintro due (⟨k, b, hb, rfl⟩ | ⟨r, hr, rfl⟩)
        · obtain ⟨d, hd, hle⟩ := hbuf k b hb
          rw [Option.some.inj (hi.symm.trans hd)]
          exact Nat.le_trans (Nat.min_le_left _ _) hle
        · obtain ⟨d, hd, hle⟩ := hready r hr
          rw [Option.some.inj (hq.symm.trans hd)]
          exact Nat.le_trans (Nat.min_le_right _ _) hle

end

/-- What the books say in a state reached by calls up to `last`. -/
structure Exact (last : Instant) (used : Set Subscription) (c : Coalescer C V) : Prop where
  /-- The index holds the deadline of each entry, once, and nothing else. -/
  index : ∀ (due : Instant) (k : BufKey C), (due, k) ∈ c.deadlines ↔
    ∃ b, c.buffer[k]? = some b ∧ b.emit_at = due
  index_size : c.deadlines.size = c.buffer.size
  counter : ∀ s, c.per_sub_len[s]? = if (c.subscription_entries s).length = 0 then none
    else some (c.subscription_entries s).length
  cap : c.buffer.size ≤ c.structural_cap
  /-- A subscription holds entries under its policy only, within the cap and the hold
      of that policy. -/
  policy : ∀ (k : BufKey C) (b : Buffered C V), c.buffer[k]? = some b →
    ∃ config, c.effective_policy k.1 = some config ∧
      (c.subscription_entries k.1).length ≤ config.max_buffered ∧
      (b.first_seen + config.max_hold ≤ instant_max →
        b.emit_at ≤ b.first_seen + config.max_hold)
  next : NextDue c c.next_deadline
  checked_next : c.checked_next_deadline = some c.next_deadline
  /-- A drain takes out exactly what is due, and what it leaves is due later. -/
  drains : ∀ now, last ≤ now → ∃ out c', c.drain_ready now = some (out, c') ∧
    Drained now c c' out ∧ ∀ due, c'.next_deadline = some due → now < due
  /-- Every call goes through with a debug build's checks, and no entry's burst begins
      anew while the entry stays. -/
  steps : ∀ op : Op C V, last ≤ op.now.getD last →
    (∀ s policy, op = .set_policy s policy → s ∉ used) →
    ∃ c' obs, c.step op = some (c', obs) ∧ c.checked_step op = some (c', obs) ∧
      ∀ (k : BufKey C) (b b' : Buffered C V), c.buffer[k]? = some b → c'.buffer[k]? = some b' →
        b'.first_seen = b.first_seen
  /-- A refused admission spends its sequence number and nothing else. -/
  refuses : ∀ (ev : Event C V) (now far : Instant) (s : Subscription) (c' : Coalescer C V),
    last ≤ now → c.admit_event ev now far = (some s, c') →
      s = ev.subscription ∧ c' = { c with next_seq := c.next_seq + 1 }

theorem Kept.exact (h : Kept last used c) : Exact last used c where
  index := h.indexed.named
  index_size := h.indexed.size
  counter s := by
    rw [← ncard_members]
    exact h.counts.count s
  cap := h.cap
  policy k b hb := by
    obtain ⟨config, hs⟩ := h.settling k b hb
    refine ⟨config, hs.policy, ?_, hs.hold⟩
    rw [← ncard_members]
    exact hs.cap
  next := h.next_due
  checked_next := if_pos h.indexed.check
  drains now hl := by
    obtain ⟨out, c', hd, -, hk, hdrained⟩ := h.drain hl
    refine ⟨out, c', hd, hdrained, ?_⟩
    intro due hdue
    have hnext := hk.next_due
    rw [hdue] at hnext
    rcases hnext.1 with ⟨k, b, hb, rfl⟩ | ⟨r, hr, -⟩
    · exact ((hdrained.left k b).mp hb).2
    · rw [hdrained.ready] at hr
      cases hr
  steps op ht hp := by
    obtain ⟨c', obs, h₁, h₂, -, h₃⟩ := h.step ht hp
    exact ⟨c', obs, h₁, h₂, h₃⟩
  refuses ev now far s c' hl ha := by
    obtain ⟨r, c₁, hc, -, hadmitted⟩ := h.admit hl ev far
    obtain ⟨rfl, rfl⟩ := Prod.mk.inj (ha.symm.trans hc)
    exact hadmitted.refused s rfl

/-- The subscriptions some calls admit events of. -/
def uses : List (Op C V) → Set Subscription
  | [] => ∅
  | op :: ops => op.uses ∪ uses ops

theorem Kept.run_used {ops : List (Op C V)} (h : Kept last used c) (ht : Timed last ops)
    (hr : Registered used ops) :
    ∃ c' tr, c.run ops = some (c', tr) ∧ c.checked_run ops = some (c', tr) ∧
      Kept (clock last ops) (used ∪ uses ops) c' := by
  induction ops generalizing c last used with
  | nil => exact ⟨c, [], rfl, rfl, (Set.union_empty used).symm ▸ h⟩
  | cons op ops ih =>
    obtain ⟨c₁, obs, h₁, h₁', hk, -⟩ := h.step ht.1 hr.1
    obtain ⟨c', tr, h₂, h₂', hk'⟩ := ih hk ht.2 hr.2
    refine ⟨c', obs ++ tr, ?_, ?_, (Set.union_assoc _ _ _) ▸ hk'⟩
    · show (c.step op).bind _ = _
      rw [h₁]
      show (c₁.run ops).map _ = _
      rw [h₂]
      rfl
    · show (c.checked_step op).bind _ = _
      rw [h₁']
      show (c₁.checked_run ops).map _ = _
      rw [h₂']
      rfl

end Coalescer

/-- Over every run the coalescer's books are exact and its bounds hold. -/
theorem bookkeeping_exact (default : Option DebounceConfig) (start : Instant) (ops : List (Op C V))
    (ht : Timed start ops) (hr : Registered ∅ ops) :
    ∃ c tr, (Coalescer.new default).run ops = some (c, tr) ∧
      (Coalescer.new default).checked_run ops = some (c, tr) ∧
      Coalescer.Exact (Coalescer.clock start ops) (Coalescer.uses ops) c := by
  have hnew : Coalescer.Kept start ∅ (Coalescer.new default : Coalescer C V) := .new default
  obtain ⟨c, tr, h₁, h₂, hk⟩ := hnew.run_used ht hr
  rw [Set.empty_union] at hk
  exact ⟨c, tr, h₁, h₂, hk.exact⟩

/-- The books of a burst that is annihilated, behind the policy it settles under. -/
theorem bookkeeping_flickered :
    ∃ c tr, (Coalescer.new none).run (.set_policy settling (.custom ⟨50, 500, 1024⟩) :: flickered) =
        some (c, tr) ∧
      (Coalescer.new none).checked_run
        (.set_policy settling (.custom ⟨50, 500, 1024⟩) :: flickered) = some (c, tr) ∧
      Coalescer.Exact (Coalescer.clock 0 (.set_policy settling (.custom ⟨50, 500, 1024⟩) :: flickered))
        (Coalescer.uses (.set_policy settling (.custom ⟨50, 500, 1024⟩) :: flickered)) c := by
  apply bookkeeping_exact none 0
  · exact ⟨by decide, by decide, by decide, by decide, trivial⟩
  · refine ⟨?_, nofun, nofun, nofun, trivial⟩
    intro s policy _ hs
    exact hs

end Umbrella
