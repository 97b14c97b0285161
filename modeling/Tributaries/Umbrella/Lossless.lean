import Tributaries.Umbrella.Stages

/-! # Runs lose nothing silently

  A change handed to a subscription is accounted for at the end of every
  run, or some turn of the run undid its account: the subscription was
  released, the change was cancelled in its slot before it was told, or the
  teardown pass dropped it behind a `Rescan` that was owed.
-/

open Std Collections

namespace Umbrella

open Proto (Epoch u64Max)

namespace Delivery

variable {C V H : Type} [Ord C] [TransOrd C] [LawfulEqOrd C] [DecidableEq C] [DecidableEq H]
  {G : Subscription → Option (List C × V)} {d d' : Delivery C V H} {s : Subscription}
  {x y ev : Event C V} {n : Nat}

/-! ### What every run delivers -/

/-- Every event delivered, settling or owed in any run is of a subscription that was
    granted, lies at or below the key it was granted at, and has its value. -/
theorem stream_within_grants {instance_id : InstanceId} {capacity : Nat}
    {debounce : Option DebounceConfig} {is_sync_artifact : List C → Bool} {elapsed : Nat → Nat}
    {far_future : Nat → Instant} {forgets : Nat → Bool} {ops : List (Op C V H)}
    (h : (new (V := V) (H := H) instance_id capacity debounce is_sync_artifact elapsed far_future
      forgets).run ops = some d) :
    (∀ x, x ∈ d.events.sent ∨ d.Waits x → ∃ key value,
      grants instance_id ops x.subscription = some (key, value) ∧
        (∀ spot ∈ x.spots, key <+: spot) ∧ x.value = some value) ∧
    ∀ s q, d.Owed s q → ∃ key value, grants instance_id ops s = some (key, value) ∧
      key <+: q.key ∧ q.value = some value := by
  obtain ⟨hs, -, -, -⟩ := standing_run ops [] _ _ (standing_new _ _ _ _ _ _ _) h
  refine ⟨fun x hx => ?_, fun s q hq => ?_⟩
  · rcases hx with hx | hx
    · exact hs.sent x hx
    · obtain ⟨⟨key, value, ha⟩, -⟩ := hs.held x (holds_rest.mpr hx)
      exact ⟨key, value, hs.live _ _ ha.live, ha.inside, ha.value⟩
  · obtain ⟨key, value, hg, hk, hv, -⟩ := hs.owed s q hq
    exact ⟨key, value, hg, hk, hv⟩

theorem stream_within_grants_overrun : ∃ d, two_slots.run overrun = some d ∧ d.events.sent ≠ [] ∧
    ∀ x, x ∈ d.events.sent ∨ d.Waits x → ∃ key value,
      grants two_slots.instance_id overrun x.subscription = some (key, value) ∧
        (∀ spot ∈ x.spots, key <+: spot) ∧ x.value = some value := by
  have hok : ((two_slots.run overrun).any fun d => d.events.sent.length = 2) = true := by
    decide +kernel
  obtain ⟨d, hd, hlen⟩ := (Option.any_eq_true _ _).mp hok
  refine ⟨d, hd, ?_, (stream_within_grants hd).1⟩
  intro hnil
  rw [hnil] at hlen
  cases hlen

/-! ### Accounts across a turn -/

section
omit [LawfulEqOrd C] [DecidableEq C] [DecidableEq H]

/-- An account needs no more than the subscription's own part of the state. -/
theorem Flight.Accounted.congr (h : (Flight.rest d).Accounted n x)
    (hclosed : d.events.closed = true → d'.events.closed = true)
    (hsent : d.events.sent.drop n ⊆ d'.events.sent.drop n)
    (hwaits : ∀ y : Event C V, y.subscription = x.subscription → d.Waits y → d'.Waits y)
    (howed : ∀ q, d.Owed x.subscription q → d'.Owed x.subscription q) :
    (Flight.rest d').Accounted n x := by
  rcases h with hc | ⟨y, hy, hf⟩
  · exact .inl (hclosed hc)
  · refine .inr ⟨y, hy, ?_⟩
    have hs := hy.subscription
    rcases hf with hf | hf | hf
    · exact .inl (hsent hf)
    · exact .inr (.inl (holds_rest.mpr (hwaits y hs (holds_rest.mp hf))))
    · refine .inr (.inr ?_)
      rcases hf with ⟨q, hq, hc⟩ | ⟨r, hr, hrs, hc, hf⟩
      · exact .inl ⟨q, hs.symm ▸ howed q (hs ▸ hq), hc⟩
      · refine .inr ⟨r, hr, hrs, hc, ?_⟩
        rcases hf with hf | hf
        · exact .inl (hsent hf)
        · exact .inr (holds_rest.mpr (hwaits r (hrs.trans hs) (holds_rest.mp hf)))

end

section
omit [DecidableEq H]

end

/-! ### Every turn -/

section
omit [LawfulEqOrd C] [DecidableEq C] [DecidableEq H]

end

section
omit [DecidableEq C] [DecidableEq H]

end

section
omit [LawfulEqOrd C] [DecidableEq H]

end

section
omit [TransOrd C] [LawfulEqOrd C]

end

/-- An owner that lets changes settle, on a stream that holds one event. -/
def settling : Delivery Nat Nat Nat :=
  new ⟨1, Nat.one_pos⟩ 1 (some ⟨5, 20, 8⟩) (fun _ => false) (fun _ => 1) (fun _ => 1000) (fun _ => false)

def modified_at (key : List Nat) : Op Nat Nat Nat :=
  .source_event ⟨7, key, .modified, [], none, .START, none, none⟩ (some [1]) [1] [first_watch]
    open_gate

/-- A creation and its modification, which settle together and are told as one. -/
def burst : List (Op Nat Nat Nat) :=
  modified_at [1, 2] :: List.replicate 6 .drain_coalescer_due

end Delivery

end Umbrella
