import Tributaries.Umbrella.Grants

/-! # The read plane

  The answers of a `WatchView`, read off the published snapshot alone, are
  those the ledger of the run gives: a key is watched when a subscription
  that was granted and neither unwatched nor retired is at or above it, and
  its value is that of the newest of the longest.
-/

open Std Collections Region

namespace Umbrella

open Proto (ScopeId)

variable {C V H : Type} {R T : Type → Type}
variable [DecidableEq C] [Ord C] [TransOrd C] [LawfulEqOrd C]
  [DecidableEq H] [Ord H] [TransOrd H] [LawfulEqOrd H] [Radix C R] [Trie ScopeId T]

/-! ### Queries -/

namespace Published

def is_watched (p : Published C V H R T) (key : List C) : Bool :=
  (Radix.get_ancestor p.covers key).isSome

def covering (p : Published C V H R T) (key : List C) : Except Panic (Option V) :=
  match Radix.get_ancestor p.covers key with
  | none => .ok none
  | some entry =>
    match entry.value with
    | .error e => .error e
    | .ok v => .ok (some v)

end Published

/-! ### What a reader should see -/

/-- A grant of the ledger owns a key: no other at or above the key has a longer key
    of its own, and none of that length was minted later. -/
structure Ledger.Owns (l : Ledger C V H) (key : List C) (sub : Subscription) (g : Grant C V H) :
    Prop where
  live : l.live sub = some g
  above : g.key <+: key
  longest : ∀ (x : Subscription) (g' : Grant C V H), l.live x = some g' → g'.key <+: key →
    g'.key <+: g.key
  latest : ∀ (x : Subscription) (g' : Grant C V H), l.live x = some g' → g'.key = g.key →
    x.scope ≤ sub.scope

/-- The same of the engine's side table: no live one at or above the key has a
    longer key of its own, and none of that length was minted later. -/
structure Owns (s : Subsumer C V H R T) (key : List C) (sub : Subscription) (r : SubRecord C H) :
    Prop where
  live : s.subs[sub]? = some r
  above : r.key <+: key
  longest : ∀ (x : Subscription) (r' : SubRecord C H), s.subs[x]? = some r' → r'.key <+: key →
    r'.key <+: r.key
  latest : ∀ (x : Subscription) (r' : SubRecord C H), s.subs[x]? = some r' → r'.key = r.key →
    x.scope ≤ sub.scope

variable {s : Subsumer C V H R T} {carried : Carried V} {key : List C}

section
omit [TransOrd C] [LawfulEqOrd C] [DecidableEq H] [LawfulEqOrd H]

/-- A key has one owner. -/
theorem Owns.unique (hs : Sound s carried) {sub sub' : Subscription} {r r' : SubRecord C H}
    (h : Owns s key sub r) (h' : Owns s key sub' r') : sub = sub' := by
  have hkey : r.key = r'.key := by
    have hle := h.longest sub' r' h'.live h'.above
    have hge := h'.longest sub r h.live h.above
    exact (hge.eq_of_length (Nat.le_antisymm hge.length_le hle.length_le))
  have hscope : sub.scope = sub'.scope := by
    have hle := h.latest sub' r' h'.live hkey.symm
    have hge := h'.latest sub r h.live hkey
    exact Proto.ProtoId.ext (Nat.le_antisymm hge hle)
  have hi := (hs.minted.live sub r h.live).1
  have hi' := (hs.minted.live sub' r' h'.live).1
  cases sub
  cases sub'
  simp only at hi hi' hscope
  rw [hi, hi', hscope]

/-- What the coverage plane answers. -/
theorem at_key_live (hs : Sound s carried) {k : List C} {e : CoverEntry T V} {id : ScopeId} {v : V}
    (he : Trie.get s.covers k = some e) (hv : Trie.get e.subs id = some v) :
    ∃ r : SubRecord C H, s.subs[(⟨s.instance_id, id⟩ : Subscription)]? = some r ∧ r.key = k ∧
      carried ⟨s.instance_id, id⟩ = some (v, r.interest) := by
  apply (hs.attributed.values k id v).mp
  unfold at_key
  rw [he]
  exact hv

/-- A live subscription is in the coverage plane, at its own key. -/
theorem live_at_key (hs : Sound s carried) {sub : Subscription} {r : SubRecord C H}
    (hr : s.subs[sub]? = some r) : ∃ e v, Trie.get s.covers r.key = some e ∧
      Trie.get e.subs sub.scope = some v ∧ carried sub = some (v, r.interest) := by
  obtain ⟨v, hv⟩ := hs.attributed.carries sub r hr
  have hi := (hs.minted.live sub r hr).1
  have hat : at_key s.covers r.key sub.scope = some v := by
    apply (hs.attributed.values r.key sub.scope v).mpr
    rw [← hi]
    exact ⟨r, hr, rfl, hv⟩
  unfold at_key at hat
  obtain ⟨e, he, hev⟩ := Option.bind_eq_some_iff.mp hat
  exact ⟨e, v, he, hev, hv⟩

/-- An entry shows the value of the newest subscription at its key. -/
theorem entry_value (hs : Sound s carried) {k : List C} {e : CoverEntry T V}
    (he : Trie.get s.covers k = some e) : ∃ sub r v, s.subs[sub]? = some r ∧ r.key = k ∧
      carried sub = some (v, r.interest) ∧ e.value = .ok v ∧
      ∀ (x : Subscription) (r' : SubRecord C H), s.subs[x]? = some r' → r'.key = k →
        x.scope ≤ sub.scope := by
  obtain ⟨v, hval⟩ := CoverEntry.value_ok (hs.attributed.filled k e he)
  have hlast : Trie.last e.subs = some v := by
    unfold CoverEntry.value at hval
    cases hl : Trie.last e.subs with
    | none =>
      rw [hl] at hval
      cases hval
    | some w =>
      rw [hl] at hval
      cases hval
      rfl
  obtain ⟨id, hid, hgreatest⟩ := Trie.last_some e.subs v hlast
  obtain ⟨r, hr, hk, hc⟩ := at_key_live hs he hid
  refine ⟨_, r, v, hr, hk, hc, hval, ?_⟩
  intro x r' hr' hk'
  obtain ⟨e', v', he', hv', -⟩ := live_at_key hs hr'
  -- both are at the one entry of their key
  rw [hk', he] at he'
  cases he'
  have hle := hgreatest x.scope (by rw [hv']; rfl)
  show x.scope.as_u64 ≤ id.as_u64
  exact Nat.isLE_compare.mp hle

end

/-! ### The answers -/

section
omit [TransOrd C] [LawfulEqOrd C] [DecidableEq H] [LawfulEqOrd H]

theorem is_watched_iff (hs : Sound s carried) (key : List C) :
    s.shared.is_watched key = true ↔
      ∃ (sub : Subscription) (r : SubRecord C H), s.subs[sub]? = some r ∧ r.key <+: key := by
  rw [hs.published]
  unfold Published.is_watched
  constructor
  · intro h
    obtain ⟨e, he⟩ := Option.isSome_iff_exists.mp h
    obtain ⟨k, hk, hget, -⟩ := Radix.get_ancestor_some s.covers key e he
    obtain ⟨sub, r, v, hr, hrk, -⟩ := entry_value hs hget
    exact ⟨sub, r, hr, hrk ▸ hk⟩
  · intro h
    obtain ⟨sub, r, hr, hk⟩ := h
    obtain ⟨e, v, he, -⟩ := live_at_key hs hr
    rw [Option.isSome_iff_ne_none]
    intro hn
    have hnone := Radix.get_ancestor_none s.covers key hn r.key hk
    rw [he] at hnone
    cases hnone

/-- The value a key resolves to is its owner's. -/
theorem covering_owner (hs : Sound s carried) (key : List C) :
    (∃ sub r v, Owns s key sub r ∧ carried sub = some (v, r.interest) ∧
      s.shared.covering key = .ok (some v)) ∨
    (∀ (sub : Subscription) (r : SubRecord C H), s.subs[sub]? = some r → ¬ r.key <+: key) ∧
      s.shared.covering key = .ok none := by
  rw [hs.published]
  unfold Published.covering
  dsimp only
  cases ha : Radix.get_ancestor s.covers key with
  | none =>
    right
    refine ⟨?_, rfl⟩
    intro sub r hr hk
    obtain ⟨e, v, he, -⟩ := live_at_key hs hr
    have hnone := Radix.get_ancestor_none s.covers key ha r.key hk
    rw [he] at hnone
    cases hnone
  | some e =>
    left
    obtain ⟨k, hk, hget, hlong⟩ := Radix.get_ancestor_some s.covers key e ha
    obtain ⟨sub, r, v, hr, hrk, hc, hval, hnewest⟩ := entry_value hs hget
    refine ⟨sub, r, v, ⟨hr, hrk ▸ hk, ?_, ?_⟩, hc, ?_⟩
    · intro x r' hr' hk'
      obtain ⟨e', v', he', -⟩ := live_at_key hs hr'
      rw [hrk]
      exact hlong r'.key hk' (by rw [he']; rfl)
    · intro x r' hr' hk'
      exact hnewest x r' hr' (hk'.trans hrk)
    · dsimp only
      rw [hval]

/-- One armed root lies at or above what a live subscription covers: its own. -/
theorem root_above (hs : Sound s carried) {sub : Subscription} {r : SubRecord C H}
    (hr : s.subs[sub]? = some r) (hk : r.key <+: key) :
    ∃ k record, Trie.get s.shared.roots k = some record ∧ k <+: key ∧ record.handle = r.root ∧
      ∀ k' record', Trie.get s.shared.roots k' = some record' → k' <+: key → k' = k := by
  rw [hs.published]
  obtain ⟨k, hb⟩ := hs.root_live hr
  obtain ⟨record, hg, hh⟩ := hs.rooted.handle r.root k hb
  have hle : k <+: key := (hs.housed.below sub r k hr hb).trans hk
  refine ⟨k, record, hg, hle, hh, ?_⟩
  intro k' record' hg' hle'
  rcases Nat.le_total k.length k'.length with hlen | hlen
  · exact (hs.rooted.prefix_free k k' record record' hg hg'
      (List.prefix_of_prefix_length_le hle hle' hlen)).symm
  · exact hs.rooted.prefix_free k' k record' record hg' hg
      (List.prefix_of_prefix_length_le hle' hle hlen)

end

/-! ### The read plane over whole runs -/

/-- The answers a reader gets, against the ledger of the calls. -/
structure ReadPlane (s : Session C V H R T) (l : Ledger C V H) : Prop where
  is_watched : ∀ key, s.engine.shared.is_watched key = true ↔
    ∃ sub g, l.live sub = some g ∧ g.key <+: key
  covering : ∀ key,
    (∃ sub g, l.Owns key sub g ∧ (∀ x g', l.Owns key x g' → x = sub) ∧
      s.engine.shared.covering key = .ok (some g.value)) ∨
    (∀ sub g, l.live sub = some g → ¬ g.key <+: key) ∧ s.engine.shared.covering key = .ok none
  value : ∀ sub g, l.live sub = some g → s.engine.subscription_key sub = some g.key ∧
    s.engine.subscription_value sub = some g.value
  /-- A subscription that was never granted, or was unwatched or retired since, has no
      key, no value, and no place at any key of the snapshot. -/
  departed : ∀ sub, l.live sub = none →
    s.engine.subscription_key sub = none ∧ s.engine.subscription_value sub = none ∧
      (sub.instance_id = s.engine.instance_id → ∀ k e,
        Trie.get s.engine.shared.covers k = some e → e.value_of sub = none)
  served : ∀ sub g key, l.live sub = some g → g.key <+: key →
    ∃ k record, Trie.get s.engine.shared.roots k = some record ∧ k <+: key ∧
      record.handle = g.root ∧
      ∀ k' record', Trie.get s.engine.shared.roots k' = some record' → k' <+: key → k' = k

namespace Booked

variable {s : Session C V H R T} {l : Ledger C V H} {sub : Subscription} {g : Grant C V H}

section
omit [DecidableEq C] [Ord C] [TransOrd C] [LawfulEqOrd C] [DecidableEq H] [TransOrd H] [LawfulEqOrd H] [Radix C R] [Trie ScopeId T]

theorem live (h : Booked s l) (hg : l.live sub = some g) :
    s.engine.subs[sub]? = some g.side := by
  rw [h.subs sub, hg]
  rfl

theorem granted_of_live (h : Booked s l) {r : SubRecord C H} (hr : s.engine.subs[sub]? = some r) :
    ∃ g, l.live sub = some g ∧ g.side = r := by
  rw [h.subs sub] at hr
  exact Option.map_eq_some_iff.mp hr

theorem owns_iff (h : Booked s l) : l.Owns key sub g ↔
    l.live sub = some g ∧ Umbrella.Owns s.engine key sub g.side := by
  constructor
  · intro ho
    refine ⟨ho.live, h.live ho.live, ho.above, fun x r' hr' hk' => ?_, fun x r' hr' hk' => ?_⟩
    · obtain ⟨g', hg', rfl⟩ := h.granted_of_live hr'
      exact ho.longest x g' hg' hk'
    · obtain ⟨g', hg', rfl⟩ := h.granted_of_live hr'
      exact ho.latest x g' hg' hk'
  · rintro ⟨hg, ho⟩
    exact ⟨hg, ho.above, fun x g' hg' hk' => ho.longest x _ (h.live hg') hk',
      fun x g' hg' hk' => ho.latest x _ (h.live hg') hk'⟩

end

section
omit [TransOrd C] [LawfulEqOrd C] [LawfulEqOrd H]

theorem read_plane (hk : s.Kept) (h : Booked s l) : ReadPlane s l := by
  have hs := hk.sound
  have hkey : ∀ sub : Subscription,
      s.engine.subscription_key sub = (l.live sub).map Grant.key := by
    intro sub
    unfold Subsumer.subscription_key
    rw [h.subs sub, Option.map_map]
    rfl
  refine ⟨fun key => ?_, fun key => ?_, fun sub g hg => ?_, fun sub hn => ?_,
    fun sub g key hg hle => root_above hs (h.live hg) hle⟩
  · rw [is_watched_iff hs key]
    constructor
    · rintro ⟨sub, r, hr, hle⟩
      obtain ⟨g, hg, rfl⟩ := h.granted_of_live hr
      exact ⟨sub, g, hg, hle⟩
    · rintro ⟨sub, g, hg, hle⟩
      exact ⟨sub, g.side, h.live hg, hle⟩
  · rcases covering_owner hs key with ⟨sub, r, v, ho, hc, hv⟩ | ⟨hnone, hv⟩
    · left
      obtain ⟨g, hg, rfl⟩ := h.granted_of_live ho.live
      have hval : v = g.value := by
        rw [h.carried sub g hg] at hc
        exact (Prod.mk.inj (Option.some.inj hc)).1.symm
      refine ⟨sub, g, h.owns_iff.mpr ⟨hg, ho⟩, fun x g' hx => ?_, hval ▸ hv⟩
      exact (h.owns_iff.mp hx).2.unique hs ho
    · exact .inr ⟨fun sub g hg => hnone sub g.side (h.live hg), hv⟩
  · refine ⟨by rw [hkey, hg]; rfl, ?_⟩
    rw [hs.value (h.live hg), h.carried sub g hg]
    rfl
  · have hsub : s.engine.subs[sub]? = none := by
      rw [h.subs sub, hn]
      rfl
    have hnone : s.engine.subscription_key sub = none := by
      rw [hkey, hn]
      rfl
    refine ⟨hnone, ?_, fun hi k e he => ?_⟩
    · unfold Subsumer.subscription_value
      rw [hnone]
      rfl
    · rw [hs.published] at he
      cases hv : e.value_of sub with
      | none => rfl
      | some v =>
        obtain ⟨r, hr, -⟩ := at_key_live hs he hv
        rw [← hi, hsub] at hr
        cases hr

end

end Booked

/-- In every run of calls in the order the owner keeps, the published
    snapshot answers for exactly the subscriptions that were granted and neither
    unwatched nor retired. -/
theorem read_plane_exact (instance_id : InstanceId) (calls : List (Call C V H))
    (h : (Session.start instance_id : Session C V H R T).Disciplined calls) :
    (∃ s, (Session.start instance_id : Session C V H R T).run calls = .ok s ∧
      ReadPlane s ((Session.start instance_id : Session C V H R T).ledger .new calls)) ∨
    (Session.start instance_id : Session C V H R T).run calls = .error .id_space_exhausted := by
  have hk : (Session.start instance_id : Session C V H R T).Kept := Session.start_kept instance_id
  rcases Session.run_kept hk h with ⟨s, hs, hran, -⟩ | ⟨he, -⟩
  · exact .inl ⟨s, hs, ((Booked.start instance_id).run hk h hs).read_plane hran.kept⟩
  · exact .inr he

set_option maxRecDepth 8000 in
/-- A watch below, a wider one over it and a third beside it; the wider is unwatched and
    the root is rebound: the first and the third are left, and their keys alone answer. -/
theorem read_plane_opening :
    ∃ s l, (Session.start first_watcher : SortedSession).run (opening ++ closing.dropLast) = .ok s ∧
      ReadPlane s l ∧
      (l.live ⟨first_watcher, .min⟩).map (fun g => (g.key, g.value, g.root)) = some ([0, 1], 10, 3) ∧
      (l.live ⟨first_watcher, Proto.ProtoId.min.succ⟩).isNone = true ∧
      s.engine.shared.is_watched [0, 1, 5] = true ∧ s.engine.shared.is_watched [0, 3] = false := by
  have hd : (Session.start first_watcher : SortedSession).Disciplined
      (opening ++ closing.dropLast) := by
    decide +kernel
  have hshown : ((Session.start first_watcher : SortedSession).run (opening ++ closing.dropLast)).toOption.map
      (fun s => (s.engine.shared.is_watched [0, 1, 5], s.engine.shared.is_watched [0, 3])) =
        some (true, false) := by
    decide +kernel
  have hgrant : (((Session.start first_watcher : SortedSession).ledger .new
        (opening ++ closing.dropLast)).live ⟨first_watcher, .min⟩).map
          (fun g => (g.key, g.value, g.root)) = some ([0, 1], 10, 3) := by
    decide +kernel
  have hgone : (((Session.start first_watcher : SortedSession).ledger .new
        (opening ++ closing.dropLast)).live ⟨first_watcher, Proto.ProtoId.min.succ⟩).isNone =
          true := by
    decide +kernel
  rcases read_plane_exact first_watcher (opening ++ closing.dropLast) hd with ⟨s, hs, hr⟩ | h
  · rw [hs] at hshown
    obtain ⟨hin, hout⟩ := Prod.mk.inj (Option.some.inj hshown)
    exact ⟨s, _, hs, hr, hgrant, hgone, hin, hout⟩
  · rw [h] at hshown
    cases hshown

end Umbrella
