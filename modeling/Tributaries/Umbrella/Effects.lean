import Tributaries.Umbrella.Sound

/-! # What a move does to the books

  A move leaves what is owed and what was sent as they are, or it owes more to
  one live subscription, sends one event, or settles one debt.  What holds of
  the stream and of what is owed is read off these five.
-/

open Std Collections

namespace Umbrella

open Proto (Epoch)

namespace Delivery

variable {C V H : Type} [Ord C] [TransOrd C] [LawfulEqOrd C] [DecidableEq C] [DecidableEq H]
  {G : Subscription → Option (List C × V)} {F F' : Flight C V H} {d d' : Delivery C V H}
  {s t : Subscription} {ev : Event C V} {act : Act C V}

/-- Nothing is sent, and what is owed stays. -/
structure Calm (d d' : Delivery C V H) : Prop where
  instance_id : d'.instance_id = d.instance_id
  next_sub : d'.next_sub = d.next_sub
  grants : ∀ s, d'.grant_of s = d.grant_of s
  events : d'.events = d.events
  needs : d'.needs_rescan = d.needs_rescan
  suppressed : d'.suppressed_rescan = d.suppressed_rescan
  unclaimed : d'.unclaimed = d.unclaimed
  serial : ∀ s, d'.loss_count s = d.loss_count s
  gen : d.loss_gen ≤ d'.loss_gen

section
omit [TransOrd C] [LawfulEqOrd C] [DecidableEq C] [DecidableEq H]

theorem Quiet.calm (h : Quiet d d') : Calm d d' :=
  ⟨h.instance_id, h.next_sub, h.grants, h.events, h.needs, h.suppressed, h.unclaimed, h.serial, h.gen⟩

end

inductive Effect (act : Act C V) (F : Flight C V H) : Delivery C V H → Prop
  | calm {d' : Delivery C V H} (h : Calm F.d d') : Effect act F d'
  /-- The subscription is the one shed, or that of an event in hand. -/
  | owing {d' : Delivery C V H} {s : Subscription} {g : List C × V} {covers : List (List C)}
    {epoch : Epoch} {value : Option V} (hg : F.d.grant_of s = some g)
    (hs : act = .shed s ∨ ∃ ev, F.Holds ev ∧ ev.subscription = s)
    (ho : Owing F.d d' s covers epoch value) : Effect act F d'
  | sent {ev : Event C V} {events : BoundedChannel (Event C V)} (hev : F.Holds ev)
    (ho : F.d.owes ev.subscription = false) (hs : F.d.events.try_send ev = .accepted events) :
    Effect act F { F.d with events }
  | published {s : Subscription} {q : ParkedRescan C V} {events : BoundedChannel (Event C V)}
    (hq : F.d.needs_rescan[s]? = some q) (hs : F.d.events.try_send (q.offer s) = .accepted events) :
    Effect act F { F.d with events, needs_rescan := F.d.needs_rescan.erase s }
  | discarded {s : Subscription} (hc : F.d.events.closed = true) :
    Effect act F { F.d with needs_rescan := F.d.needs_rescan.erase s }

section
omit [LawfulEqOrd C] [DecidableEq H]

/-- Parking a refused event owes its subscription all of it. -/
theorem park_effect {i a r : List (Event C V)} (h : Sound G ⟨d, i, a, r⟩)
    (hev : (⟨d, i, a, r⟩ : Flight C V H).Holds ev) :
    Effect act ⟨d, i, a, r⟩ (d.park_rescan ev.subscription) := by
  obtain ⟨⟨key, value, ha⟩, -⟩ := h.held ev hev
  rw [park_rescan_live ha.live]
  obtain ⟨epoch, -, ho, -, -⟩ := owing_shed d ev.subscription key (some value)
  exact .owing ha.live (.inr ⟨ev, hev, rfl⟩) ho

/-- The effect of every move. -/
theorem move_effect (h : Sound G F) (hm : Move act F F') : Effect act F F'.d := by
  have still : ∀ {d' : Delivery C V H}, d'.instance_id = F.d.instance_id →
      d'.next_sub = F.d.next_sub → d'.subs = F.d.subs → d'.events = F.d.events →
      d'.needs_rescan = F.d.needs_rescan → d'.suppressed_rescan = F.d.suppressed_rescan →
      d'.unclaimed = F.d.unclaimed → d'.loss_serial = F.d.loss_serial → d'.loss_gen = F.d.loss_gen →
      Effect act F d' := by
    intro d' hi hn hsubs hev hneeds hsup hun hser hgen
    refine .calm ⟨hi, hn, fun s => ?_, hev, hneeds, hsup, hun, fun s => ?_, ?_⟩
    · unfold grant_of
      rw [hsubs]
    · unfold loss_count
      rw [hser]
    · rw [hgen]
  cases hm with
  | quiet hq => exact .calm hq.calm
  | @shed d i a r s key value hg =>
    obtain ⟨epoch, -, ho, -, -⟩ := owing_shed d s key (some value)
    exact .owing hg (.inl rfl) ho
  | overflow => exact park_effect h (.inr (.inr (.inl List.mem_cons_self)))
  | @emit d i a r ev =>
    have hev : (⟨d, i, ev :: a, r⟩ : Flight C V H).Holds ev := .inr (.inl List.mem_cons_self)
    obtain ⟨⟨key, value, ha⟩, -⟩ := h.held ev hev
    have hemits := try_emit_emits d ev
    show Effect _ _ (d.try_emit ev)
    generalize d.try_emit ev = d' at hemits ⊢
    cases hemits with
    | sent ho hs => exact .sent hev ho hs
    | closed hc => exact still rfl rfl rfl rfl rfl rfl rfl rfl rfl
    | parked hr => exact .owing ha.live (.inr ⟨ev, hev, rfl⟩) (owing_park_event d ev)
    | widened ho hr =>
      obtain ⟨epoch, -, how, -, -⟩ := owing_widen d ev ho
      exact .owing ha.live (.inr ⟨ev, hev, rfl⟩) how
    | shed ho hr => exact park_effect h hev
  | publish hq ha hair => exact .published hq ha
  | discard hc => exact .discarded hc
  | _ => exact still rfl rfl rfl rfl rfl rfl rfl rfl rfl

end

namespace Effect

omit [LawfulEqOrd C] [DecidableEq C] [DecidableEq H]

/-- The stream only grows, and a consumer that is gone stays gone. -/
theorem grows (he : Effect act F d') : F.d.events.Extends d'.events := by
  cases he with
  | calm h =>
    rw [h.events]
    exact .refl _
  | owing hg hs ho =>
    rw [ho.events]
    exact .refl _
  | sent hev ho hs => exact .of_accepted hs
  | published hq hs => exact .of_accepted hs
  | discarded hc => exact .refl _

theorem grants (he : Effect act F d') (t : Subscription) : d'.grant_of t = F.d.grant_of t := by
  cases he with
  | calm h => exact h.grants t
  | owing hg hs ho =>
    unfold grant_of
    rw [ho.subs]
  | sent hev ho hs => rfl
  | published hq hs => rfl
  | discarded hc => rfl

theorem minted (he : Effect act F d') : d'.minted = F.d.minted := by
  have same : ∀ {d' : Delivery C V H}, d'.instance_id = F.d.instance_id →
      d'.next_sub = F.d.next_sub → d'.minted = F.d.minted := by
    intro d' hi hn
    unfold Delivery.minted
    rw [hi, hn]
  cases he with
  | calm h => exact same h.instance_id h.next_sub
  | owing hg hs ho => exact same ho.instance_id ho.next_sub
  | sent hev ho hs => rfl
  | published hq hs => rfl
  | discarded hc => rfl

theorem unclaimed (he : Effect act F d') : d'.unclaimed = F.d.unclaimed := by
  cases he with
  | calm h => exact h.unclaimed
  | owing hg hs ho => exact ho.unclaimed
  | sent hev ho hs => rfl
  | published hq hs => rfl
  | discarded hc => rfl

/-- The clocks that barriers read only move on. -/
theorem clocks (he : Effect act F d') :
    (∀ t, F.d.loss_count t ≤ d'.loss_count t) ∧ F.d.loss_gen ≤ d'.loss_gen := by
  cases he with
  | calm h => exact ⟨fun t => Nat.le_of_eq (h.serial t).symm, h.gen⟩
  | owing hg hs ho =>
    refine ⟨fun t => ?_, ho.gen ▸ Nat.le_succ _⟩
    rw [ho.serial]
    split
    · rename_i heq
      subst heq
      exact Nat.le_succ _
    · exact Nat.le_refl _
  | sent hev ho hs => exact ⟨fun _ => Nat.le_refl _, Nat.le_refl _⟩
  | published hq hs => exact ⟨fun _ => Nat.le_refl _, Nat.le_refl _⟩
  | discarded hc => exact ⟨fun _ => Nat.le_refl _, Nat.le_refl _⟩

/-- The shared clock counts every loss that a subscription's does. -/
theorem within (he : Effect act F d') (h : ∀ t, F.d.loss_count t ≤ F.d.loss_gen) (t : Subscription) :
    d'.loss_count t ≤ d'.loss_gen := by
  cases he with
  | calm hc =>
    rw [hc.serial]
    exact Nat.le_trans (h t) hc.gen
  | @owing d' s g covers epoch value hg hs ho =>
    have hs := h s
    have ht := h t
    rw [ho.serial, ho.gen]
    split
    · omega
    · omega
  | sent hev ho hs => exact h t
  | published hq hs => exact h t
  | discarded hc => exact h t

end Effect

/-- What every effect keeps, a stretch of a turn keeps. -/
theorem path_effects {P : Act C V → Prop} {I : Delivery C V H → Prop}
    (hI : ∀ (F : Flight C V H) act d', Sound G F → I F.d → Effect act F d' → I d') (h : Sound G F)
    (hp : Path P F F') (hd : I F.d) : I F'.d := by
  induction hp with
  | refl => exact hd
  | tail hp hm ih =>
    obtain ⟨act, -, hm⟩ := hm
    exact hI _ act _ (h.path hp) ih (move_effect (h.path hp) hm)

theorem path_grants {P : Act C V → Prop} (h : Sound G F) (hp : Path P F F') (s : Subscription) :
    F'.d.grant_of s = F.d.grant_of s :=
  path_effects (I := fun d => d.grant_of s = F.d.grant_of s) (fun _ _ _ _ hd he => (he.grants s).trans hd)
    h hp rfl

end Delivery

end Umbrella
