import Tributaries.Os.Losses
import Mathlib.Data.List.Perm.Basic
import Mathlib.Data.List.Range

/-! # Permits, the fatal signal and the resume point

  The permits out are the batches built, queued and held, and the budget
  bounds them.  The published resume point moves by ingested batches only,
  never backward within its scope.
-/

namespace Transport

open Machine

variable {E X : Type} {w : Width} {budget : Fin w.limit} {s s' : State E X}

/-! ### Permits -/

def building : Producer E X → List (BatchPayload E)
  | .send_batch payload _ => [payload]
  | _ => []

/-- The permits claimed and not returned. -/
def permits_out (s : State E X) : List Nat :=
  (building s.producer ++ batches (outstanding s) ++ s.held).map BatchPayload.permit

def released (log : List Event) : List Nat :=
  log.filterMap fun
    | .released permit => some permit
    | _ => none

@[simp] theorem released_append (l l' : List Event) :
    released (l ++ l') = released l ++ released l' := List.filterMap_append

structure Budgeted (budget : Fin w.limit) (s : State E X) : Prop where
  perm : (List.range s.issued).Perm (released s.log ++ permits_out s)
  count : s.in_flight = (permits_out s).length
  le : s.in_flight ≤ budget.val

namespace Budgeted

theorem start : Budgeted budget (State.start E X) where
  perm := List.Perm.refl _
  count := rfl
  le := Nat.zero_le _

/-- A step that claims and returns no permit. -/
theorem frame (h : Budgeted budget s) (hr : released s'.log = released s.log)
    (ho : (permits_out s').Perm (permits_out s)) (hi : s'.issued = s.issued)
    (hf : s'.in_flight = s.in_flight) : Budgeted budget s' where
  perm := by
    rw [hr, hi]
    exact h.perm.trans (ho.symm.append_left _)
  count := by
    rw [hf, h.count, ho.length_eq]
  le := by
    rw [hf]
    exact h.le

end Budgeted

theorem quiet_building {p : Producer E X}
    (h : p.is_idle ∨ (∃ e l r, p = .acquire e l r) ∨ ∃ err, p = .swap_fatal err) :
    building p = [] := by
  rcases h with h | ⟨_, _, _, rfl⟩ | ⟨_, rfl⟩
  · rw [is_idle_iff] at h
    rw [h]
    rfl
  · rfl
  · rfl

theorem permits_out_of (hb : building s'.producer = building s.producer)
    (ho : batches (outstanding s') = batches (outstanding s)) (hh : s'.held = s.held) :
    (permits_out s').Perm (permits_out s) := by
  unfold permits_out
  rw [hb, ho, hh]

theorem Move.budgeted (hm : Move budget s s') (h : Budgeted budget s) : Budgeted budget s' := by
  cases hm with
  | begin hp hq =>
    refine h.frame ?_ (permits_out_of ?_ rfl rfl) rfl rfl
    · exact (released_append ..).trans (List.append_nil _)
    · rw [hp]
      rfl
  | called hp hp' =>
    refine h.frame rfl (permits_out_of ?_ rfl rfl) rfl rfl
    rw [quiet_building (hp.imp_right .inr)]
    exact quiet_building (hp'.imp_right .inr)
  | nothing hp =>
    refine h.frame rfl (permits_out_of ?_ rfl rfl) rfl rfl
    rw [hp]
    rfl
  | lose hp hl =>
    refine h.frame ?_ (permits_out_of ?_ rfl rfl) rfl rfl
    · exact (released_append ..).trans (List.append_nil _)
    · rw [hp]
      rfl
  | acquire hp he hb =>
    have ho := quiet_building (.inr (.inl ⟨_, _, _, hp⟩))
    have hperm := h.perm
    have hcount := h.count
    unfold permits_out at hperm hcount
    rw [ho, List.nil_append] at hperm hcount
    refine ⟨?_, ?_, hb⟩
    · show (List.range (s.issued + 1)).Perm (released s.log ++ s.issued :: _)
      rw [List.range_succ]
      refine (hperm.append_right [s.issued]).trans ?_
      rw [List.append_assoc]
      exact (List.perm_append_singleton _ _).append_left _
    · show s.in_flight + 1 = _
      rw [hcount]
      rfl
  | send_batch hp hr =>
    refine h.frame ?_ ?_ rfl rfl
    · exact (released_append ..).trans (List.append_nil _)
    · unfold permits_out outstanding
      rw [hp, ← List.append_assoc, batches_append]
      apply List.Perm.map
      apply List.Perm.append_right
      show (batches (in_hand s.consumer ++ s.queue) ++ [_]).Perm
        ([_] ++ batches (in_hand s.consumer ++ s.queue))
      exact List.perm_append_comm
  | supersede hp hl =>
    refine h.frame ?_ (permits_out_of ?_ rfl rfl) rfl rfl
    · rcases hl with ⟨rfl, rfl, -⟩ | ⟨rfl, rfl, -⟩ <;> exact (released_append ..).trans (List.append_nil _)
    · rw [hp]
      rcases hl with ⟨rfl, -, -⟩ | ⟨rfl, -, -⟩ <;> rfl
  | elect hp hg =>
    refine h.frame rfl (permits_out_of ?_ rfl rfl) rfl rfl
    rw [hp]
    rfl
  | ride hp hg =>
    refine h.frame rfl (permits_out_of ?_ rfl rfl) rfl rfl
    rw [hp]
    rfl
  | send_overflow hp hr =>
    refine h.frame ?_ (permits_out_of ?_ ?_ rfl) rfl rfl
    · exact (released_append ..).trans (List.append_nil _)
    · rw [hp]
      rfl
    · unfold outstanding
      rw [← List.append_assoc, batches_append]
      exact List.append_nil _
  | swap_fatal hp hf =>
    refine h.frame rfl (permits_out_of ?_ rfl rfl) rfl rfl
    rw [hp]
    rfl
  | send_fatal hp hr =>
    refine h.frame ?_ (permits_out_of ?_ ?_ rfl) rfl rfl
    · exact (released_append ..).trans (List.append_nil _)
    · rw [hp]
      rfl
    · unfold outstanding
      rw [← List.append_assoc, batches_append]
      exact List.append_nil _
  | take_batch hc hq =>
    refine h.frame rfl (permits_out_of rfl ?_ rfl) rfl rfl
    rw [outstanding_ready hc, hq]
    rfl
  | take_overflow hc hq =>
    refine h.frame rfl (permits_out_of rfl ?_ rfl) rfl rfl
    rw [outstanding_ready hc, hq]
    rfl
  | take_fatal hc hq =>
    refine h.frame rfl (permits_out_of rfl ?_ rfl) rfl rfl
    rw [outstanding_ready hc, hq]
    unfold outstanding
    rw [hc]
    rfl
  | ingest hc hp =>
    rename_i payload published
    refine h.frame ?_ ?_ rfl rfl
    · exact (released_append ..).trans (List.append_nil _)
    · unfold permits_out outstanding
      rw [hc]
      apply List.Perm.map
      show (building s.producer ++ batches s.queue ++ (s.held ++ [payload])).Perm
        (building s.producer ++ payload :: batches s.queue ++ s.held)
      rw [List.append_assoc, List.append_assoc]
      apply List.Perm.append_left
      rw [← List.append_assoc]
      exact List.perm_append_singleton ..
  | drop_ack hc =>
    refine h.frame ?_ (permits_out_of rfl ?_ rfl) rfl rfl
    · exact (released_append ..).trans (List.append_nil _)
    · unfold outstanding
      rw [hc]
      rfl
  | rescan hc =>
    refine h.frame ?_ (permits_out_of rfl ?_ rfl) rfl rfl
    · exact (released_append ..).trans (List.append_nil _)
    · unfold outstanding
      rw [hc]
      rfl
  | release hh =>
    rename_i permit
    obtain ⟨b, hb, hpb⟩ := List.any_eq_true.mp hh
    obtain ⟨a, l₁, l₂, -, hpa, hl, he⟩ := List.exists_of_eraseP (p := fun b => decide (b.permit = permit)) hb hpb
    have hpa : a.permit = permit := of_decide_eq_true hpa
    have hperm : (permits_out s).Perm (permit :: permits_out { s with held := l₁ ++ l₂ }) := by
      unfold permits_out
      rw [hl, ← hpa, ← List.map_cons]
      apply List.Perm.map
      show (building s.producer ++ batches (outstanding s) ++ (l₁ ++ a :: l₂)).Perm
        (a :: (building s.producer ++ batches (outstanding s) ++ (l₁ ++ l₂)))
      rw [← List.append_assoc, ← List.append_assoc]
      exact List.perm_middle
    have hlen := hperm.length_eq
    rw [List.length_cons] at hlen
    have hle := h.le
    have hlt := budget.isLt
    have hcount := h.count
    have hin : (s.in_flight + (w.limit - 1)) % w.limit = s.in_flight - 1 := by
      have hsum : s.in_flight + (w.limit - 1) = (s.in_flight - 1) + w.limit := by omega
      rw [hsum, Nat.add_mod_right, Nat.mod_eq_of_lt (by omega)]
    refine ⟨?_, ?_, ?_⟩
    · show (List.range s.issued).Perm (released (s.log ++ [.released permit]) ++ permits_out
        { s with held := s.held.eraseP (·.permit = permit) })
      rw [he, released_append]
      refine h.perm.trans ?_
      rw [List.append_assoc]
      exact hperm.append_left _
    · show (s.in_flight + (w.limit - 1)) % w.limit = (permits_out
        { s with held := s.held.eraseP (·.permit = permit) }).length
      rw [he, hin]
      omega
    · show (s.in_flight + (w.limit - 1)) % w.limit ≤ budget.val
      omega

/-- The batches queued or held stay within the budget. -/
theorem Budgeted.bounded (h : Budgeted budget s) :
    (batches (outstanding s)).length + s.held.length ≤ budget.val := by
  have hc := h.count
  have hle := h.le
  unfold permits_out at hc
  rw [List.length_map, List.length_append, List.length_append] at hc
  omega

/-! ### The fatal signal -/

structure Terminal (s : State E X) : Prop where
  unsent : s.fatal_sent = false → .sent_fatal ∉ s.log
  sending : ∀ err, s.producer = .send_fatal err → s.fatal_sent = true ∧ .sent_fatal ∉ s.log
  once : s.log.count .sent_fatal ≤ 1

theorem Terminal.start : Terminal (State.start E X) where
  unsent := fun _ => List.not_mem_nil
  sending := nofun
  once := Nat.zero_le _

/-- A step that sends no fatal. -/
theorem Terminal.frame (h : Terminal s) {events : List Event} (hlog : s'.log = s.log ++ events)
    (he : .sent_fatal ∉ events) (hf : s'.fatal_sent = s.fatal_sent)
    (hp : ∀ err, s'.producer = .send_fatal err → s.producer = .send_fatal err) : Terminal s' := by
  have hmem : .sent_fatal ∈ s'.log → .sent_fatal ∈ s.log := by
    intro hin
    rw [hlog] at hin
    rcases List.mem_append.mp hin with hin | hin
    · exact hin
    · exact absurd hin he
  refine ⟨?_, ?_, ?_⟩
  · intro hs hin
    rw [hf] at hs
    exact h.unsent hs (hmem hin)
  · intro err ha
    obtain ⟨h₁, h₂⟩ := h.sending err (hp err ha)
    exact ⟨hf ▸ h₁, fun hin => h₂ (hmem hin)⟩
  · have ho := h.once
    rw [hlog, List.count_append, List.count_eq_zero_of_not_mem he]
    exact ho

theorem Move.terminal (hm : Move budget s s') (h : Terminal s) : Terminal s' := by
  cases hm with
  | begin hp hq => exact h.frame rfl (by simp) rfl nofun
  | called hp hp' =>
    refine h.frame (List.append_nil _).symm List.not_mem_nil rfl ?_
    intro err he
    rcases hp' with hi | ⟨_, hi⟩
    · rw [is_idle_iff] at hi
      cases hi.symm.trans he
    · cases hi.symm.trans he
  | nothing hp => exact h.frame (List.append_nil _).symm List.not_mem_nil rfl nofun
  | lose hp hl => exact h.frame rfl (by simp) rfl nofun
  | acquire hp he hb => exact h.frame (List.append_nil _).symm List.not_mem_nil rfl nofun
  | send_batch hp hr => exact h.frame rfl (by simp) rfl nofun
  | supersede hp hl =>
    rcases hl with ⟨rfl, rfl, -⟩ | ⟨rfl, rfl, -⟩
    · exact h.frame rfl List.not_mem_nil rfl nofun
    · exact h.frame rfl (by simp) rfl nofun
  | elect hp hg => exact h.frame (List.append_nil _).symm List.not_mem_nil rfl nofun
  | ride hp hg => exact h.frame (List.append_nil _).symm List.not_mem_nil rfl nofun
  | send_overflow hp hr => exact h.frame rfl (by simp) rfl nofun
  | swap_fatal hp hf =>
    have hun := h.unsent hf
    exact ⟨nofun, fun _ _ => ⟨rfl, hun⟩, h.once⟩
  | send_fatal hp hr =>
    obtain ⟨h₁, h₂⟩ := h.sending _ hp
    refine ⟨?_, nofun, ?_⟩
    · intro hs
      cases h₁.symm.trans hs
    · show (s.log ++ [_]).count _ ≤ 1
      rw [List.count_append, List.count_eq_zero_of_not_mem h₂]
      decide
  | take_batch hc hq => exact ⟨h.unsent, h.sending, h.once⟩
  | take_overflow hc hq => exact ⟨h.unsent, h.sending, h.once⟩
  | take_fatal hc hq => exact ⟨h.unsent, h.sending, h.once⟩
  | ingest hc hp => exact h.frame rfl (by simp) rfl (fun _ he => he)
  | drop_ack hc => exact h.frame rfl (by simp) rfl (fun _ he => he)
  | rescan hc => exact h.frame rfl (by simp) rfl (fun _ he => he)
  | release hh => exact h.frame rfl (by simp) rfl (fun _ he => he)

end Transport
