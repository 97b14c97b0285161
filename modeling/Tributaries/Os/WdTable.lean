import Tributaries.Collections
import Tributaries.Proto.Vocabulary

/-! # The inotify watch-descriptor table

  One kernel watch descriptor backs one or more anchors, and the table is
  kept in both directions.  A descriptor whose last anchor leaves is asked
  to be removed once, and its entry stands, draining, until the kernel's
  final marker or a proof that there is none to come.
-/

open Std Collections

namespace Inotify

open Proto (WatchId)

/-- A kernel watch descriptor. -/
abbrev Wd : Type := Int

/-- What the caller does with the kernel watch after an anchor left. -/
inductive DrainDecision where
  | remove_wd (wd : Wd)
  | keep_wd
  deriving DecidableEq, Repr

/-- The anchors a descriptor still attributes to, and whether its removal was issued. -/
structure WdEntry where
  live : List WatchId
  draining : Bool
  deriving DecidableEq

structure WdTable where
  entries : Map Wd WdEntry
  by_anchor : Map WatchId Wd

namespace WdTable

def new : WdTable := { entries := ∅, by_anchor := ∅ }

variable (t : WdTable)

def wd_of (anchor : WatchId) : Option Wd := t.by_anchor[anchor]?

def contains (wd : Wd) : Bool := t.entries.contains wd

def is_live (wd : Wd) : Bool := (t.entries[wd]?).any fun entry => !entry.draining

/-- `entries.entry(wd).or_default()` -/
def entry_or_default (wd : Wd) : WdEntry := (t.entries[wd]?).getD { live := [], draining := false }

def register (wd : Wd) (anchor : WatchId) : WdTable :=
  let entry := t.entry_or_default wd
  { entries := t.entries.insert wd { entry with live := entry.live ++ [anchor] }
    by_anchor := t.by_anchor.insert anchor wd }

/-- `alias`: another anchor on a descriptor that is mapped. -/
def alias_anchor (wd : Wd) (anchor : WatchId) : WdTable :=
  let entry := t.entry_or_default wd
  let entry :=
    if entry.live.contains anchor then entry else { entry with live := entry.live ++ [anchor] }
  { entries := t.entries.insert wd entry, by_anchor := t.by_anchor.insert anchor wd }

/-- `attribute`: whom a record on the descriptor fans out to. -/
def attribute_of (wd : Wd) : List WatchId := ((t.entries[wd]?).map WdEntry.live).getD []

def begin_drain (anchor : WatchId) : WdTable × DrainDecision :=
  match t.by_anchor[anchor]? with
  | none => (t, .keep_wd)
  | some wd =>
    let t₁ := { t with by_anchor := t.by_anchor.erase anchor }
    match t.entries[wd]? with
    | none => (t₁, .keep_wd)
    | some entry =>
      let live := entry.live.filter (· ≠ anchor)
      if live.isEmpty && !entry.draining then
        ({ t₁ with entries := t.entries.insert wd { live, draining := true } }, .remove_wd wd)
      else ({ t₁ with entries := t.entries.insert wd { entry with live } }, .keep_wd)

def on_ignored (wd : Wd) : WdTable × List WatchId :=
  match t.entries[wd]? with
  | none => (t, [])
  | some entry =>
    ({ entries := t.entries.erase wd
       by_anchor := entry.live.foldl (fun bound anchor => bound.erase anchor) t.by_anchor },
      entry.live)

def on_loss : WdTable := { t with entries := t.entries.filter fun _ entry => !entry.draining }

def erase_dead (wd : Wd) : WdTable := { t with entries := t.entries.erase wd }

end WdTable

/-! ### Calls -/

inductive Call where
  | register (wd : Wd) (anchor : WatchId)
  | alias_anchor (wd : Wd) (anchor : WatchId)
  | begin_drain (anchor : WatchId)
  | on_ignored (wd : Wd)
  | on_loss
  | erase_dead (wd : Wd)

inductive Answer where
  | done
  | drain (decision : DrainDecision)
  | ignored (anchors : List WatchId)
  deriving DecidableEq

namespace WdTable

variable (t : WdTable)

def step : Call → WdTable × Answer
  | .register wd anchor => (t.register wd anchor, .done)
  | .alias_anchor wd anchor => (t.alias_anchor wd anchor, .done)
  | .begin_drain anchor => ((t.begin_drain anchor).1, .drain (t.begin_drain anchor).2)
  | .on_ignored wd => ((t.on_ignored wd).1, .ignored (t.on_ignored wd).2)
  | .on_loss => (t.on_loss, .done)
  | .erase_dead wd => (t.erase_dead wd, .done)

/-- What the source asserts of a call: a fresh descriptor for an unbound anchor,
    an alias on a live one for an anchor bound nowhere else, a tombstone. -/
def Admits : Call → Prop
  | .register wd anchor => t.contains wd = false ∧ t.wd_of anchor = none
  | .alias_anchor wd anchor =>
    t.is_live wd = true ∧ (t.wd_of anchor = none ∨ t.wd_of anchor = some wd)
  | .erase_dead wd => ∃ entry, t.entries[wd]? = some entry ∧ entry.draining = true ∧ entry.live = []
  | _ => True

def run : WdTable → List Call → WdTable
  | t, [] => t
  | t, call :: calls => run (t.step call).1 calls

def answers : WdTable → List Call → List Answer
  | _, [] => []
  | t, call :: calls => (t.step call).2 :: answers (t.step call).1 calls

def Drives : WdTable → List Call → Prop
  | _, [] => True
  | t, call :: calls => t.Admits call ∧ Drives (t.step call).1 calls

@[simp] theorem run_nil : t.run [] = t := rfl

@[simp] theorem run_cons (call : Call) (calls : List Call) :
    t.run (call :: calls) = (t.step call).1.run calls := rfl

theorem run_append (l l' : List Call) : t.run (l ++ l') = (t.run l).run l' := by
  induction l generalizing t with
  | nil => rfl
  | cons call l ih => exact ih (t.step call).1

theorem drives_append (l l' : List Call) :
    t.Drives (l ++ l') ↔ t.Drives l ∧ (t.run l).Drives l' := by
  induction l generalizing t with
  | nil => simp [Drives]
  | cons call l ih => simp [Drives, ih, and_assoc]

end WdTable

/-- A list without repetition of one value. -/
theorem eq_singleton {l : List WatchId} {a : WatchId} (h : l.Nodup) (ha : a ∈ l)
    (hall : ∀ x ∈ l, x = a) : l = [a] := by
  have hrep := List.eq_replicate_iff.mpr ⟨rfl, hall⟩
  rw [hrep, List.nodup_replicate] at h
  have hpos := List.length_pos_of_mem ha
  rw [hrep, show l.length = 1 by omega]
  rfl

/-! ### The two directions -/

/-- The two directions are inverse, no entry lists an anchor twice, and an entry
    is draining when nothing is left on it. -/
structure Mirror (t : WdTable) : Prop where
  bound : ∀ (anchor : WatchId) (wd : Wd), t.by_anchor[anchor]? = some wd ↔
    ∃ entry, t.entries[wd]? = some entry ∧ anchor ∈ entry.live
  nodup : ∀ (wd : Wd) (entry : WdEntry), t.entries[wd]? = some entry → entry.live.Nodup
  drained : ∀ (wd : Wd) (entry : WdEntry), t.entries[wd]? = some entry →
    (entry.draining = true ↔ entry.live = [])

variable {t : WdTable} {wd wd' : Wd} {anchor a : WatchId} {entry : WdEntry}

/-- Two entries that list an anchor are one. -/
theorem Mirror.wd_unique (h : Mirror t) {entry' : WdEntry} (he : t.entries[wd]? = some entry)
    (ha : a ∈ entry.live) (he' : t.entries[wd']? = some entry') (ha' : a ∈ entry'.live) :
    wd = wd' := by
  have h₁ := (h.bound a wd).mpr ⟨entry, he, ha⟩
  have h₂ := (h.bound a wd').mpr ⟨entry', he', ha'⟩
  exact Option.some.inj (h₁.symm.trans h₂)

theorem mirror_new : Mirror WdTable.new := by
  constructor <;> simp [WdTable.new]

/-- An anchor comes onto an entry that does not list it. -/
theorem Mirror.join (h : Mirror t) {live : List WatchId} (hl : t.attribute_of wd = live)
    (hb : t.by_anchor[anchor]? = none) :
    Mirror { entries := t.entries.insert wd { live := live ++ [anchor], draining := false }
             by_anchor := t.by_anchor.insert anchor wd } := by
  have hlist : ∀ a, a ∈ live ↔ t.by_anchor[a]? = some wd := by
    intro a
    rw [h.bound, ← hl, WdTable.attribute_of]
    cases t.entries[wd]? <;> simp
  have hnew : anchor ∉ live := by
    intro ha
    rw [(hlist anchor).mp ha] at hb
    cases hb
  constructor
  · intro a wd'
    rw [get_insert]
    by_cases ha : anchor = a
    · subst ha
      simp only [if_true, Option.some.injEq]
      constructor
      · intro hw
        subst hw
        exact ⟨_, by rw [get_insert, if_pos rfl], by simp⟩
      · intro ⟨entry, he, ha⟩
        rw [get_insert] at he
        by_cases hw : wd = wd'
        · exact hw
        · rw [if_neg hw] at he
          rw [(h.bound anchor wd').mpr ⟨entry, he, ha⟩] at hb
          cases hb
    · rw [if_neg ha, h.bound]
      simp only [get_insert]
      by_cases hw : wd = wd'
      · subst hw
        rw [← h.bound, ← hlist]
        simp [Ne.symm ha]
      · simp [hw]
  · intro wd' entry he
    rw [get_insert] at he
    split at he
    · obtain rfl := Option.some.inj he
      have hlive : live.Nodup := by
        rw [← hl, WdTable.attribute_of]
        cases hw : t.entries[wd]? with
        | none => simp
        | some entry => exact h.nodup wd entry hw
      exact List.Nodup.append hlive (by simp) (by simpa using hnew)
    · exact h.nodup wd' entry he
  · intro wd' entry he
    rw [get_insert] at he
    split at he
    · obtain rfl := Option.some.inj he
      simp
    · exact h.drained wd' entry he

theorem Mirror.register (h : Mirror t) (hc : t.contains wd = false)
    (hb : t.wd_of anchor = none) : Mirror (t.register wd anchor) := by
  have hn : t.entries[wd]? = none := contains_false_iff.mp hc
  have hnone : t.attribute_of wd = [] := by simp [WdTable.attribute_of, hn]
  have hj := h.join hnone hb
  simpa [WdTable.register, WdTable.entry_or_default, hn] using hj

theorem Mirror.alias_anchor (h : Mirror t) (hl : t.is_live wd = true)
    (hb : t.wd_of anchor = none ∨ t.wd_of anchor = some wd) : Mirror (t.alias_anchor wd anchor) := by
  obtain ⟨entry, he, hd⟩ : ∃ entry, t.entries[wd]? = some entry ∧ entry.draining = false := by
    rw [WdTable.is_live, Option.any_eq_true] at hl
    obtain ⟨entry, he, hd⟩ := hl
    exact ⟨entry, he, by simpa using hd⟩
  rcases hb with hb | hb
  · have hnot : anchor ∉ entry.live := by
      intro ha
      rw [WdTable.wd_of, (h.bound anchor wd).mpr ⟨entry, he, ha⟩] at hb
      cases hb
    have hlive : t.attribute_of wd = entry.live := by simp [WdTable.attribute_of, he]
    have hj := h.join hlive hb
    simpa [WdTable.alias_anchor, WdTable.entry_or_default, he, hnot, hd] using hj
  · -- a re-add: the table stays as it is
    have hin : anchor ∈ entry.live := by
      obtain ⟨entry', he', ha⟩ := (h.bound anchor wd).mp hb
      exact Option.some.inj (he'.symm.trans he) ▸ ha
    have hsame : t.alias_anchor wd anchor = t := by
      have h₁ : t.entries.insert wd entry = t.entries := by
        refine ExtTreeMap.ext_getElem? fun k => ?_
        rw [get_insert]
        split
        · rename_i hk
          rw [← hk, he]
        · rfl
      have h₂ : t.by_anchor.insert anchor wd = t.by_anchor := by
        refine ExtTreeMap.ext_getElem? fun k => ?_
        rw [get_insert]
        split
        · rename_i hk
          rw [← hk]
          exact hb.symm
        · rfl
      simp [WdTable.alias_anchor, WdTable.entry_or_default, he, hin, h₁, h₂]
    rw [hsame]
    exact h

/-! ### Draining -/

/-- What is left of an entry when an anchor leaves it. -/
def WdEntry.without (entry : WdEntry) (anchor : WatchId) : WdEntry where
  live := entry.live.filter (· ≠ anchor)
  draining := (entry.live.filter (· ≠ anchor)).isEmpty

/-- A bound anchor leaves its entry, and the removal is asked for with the last one. -/
theorem Mirror.begin_drain_eq (h : Mirror t) (hb : t.by_anchor[anchor]? = some wd)
    (he : t.entries[wd]? = some entry) :
    t.begin_drain anchor =
      ({ entries := t.entries.insert wd (entry.without anchor)
         by_anchor := t.by_anchor.erase anchor },
        if entry.live = [anchor] then .remove_wd wd else .keep_wd) := by
  obtain ⟨entry', he', hin⟩ := (h.bound anchor wd).mp hb
  obtain rfl := Option.some.inj (he.symm.trans he')
  have hd : entry.draining = false := by
    rw [Bool.eq_false_iff, ne_eq, h.drained wd entry he]
    intro hnil
    rw [hnil] at hin
    cases hin
  have hone : (entry.live.filter (· ≠ anchor)).isEmpty = true ↔ entry.live = [anchor] := by
    rw [List.isEmpty_iff, List.filter_eq_nil_iff]
    constructor
    · intro hall
      exact eq_singleton (h.nodup wd entry he) hin (by simpa using hall)
    · intro hl
      simp [hl]
  unfold WdTable.begin_drain
  simp only [hb, he, hd, Bool.not_false, Bool.and_true]
  by_cases hl : entry.live = [anchor]
  · rw [if_pos (hone.mpr hl), if_pos hl, WdEntry.without, hone.mpr hl]
  · have hne := mt hone.mp hl
    rw [if_neg hne, if_neg hl, WdEntry.without, eq_false_of_ne_true hne, ← hd]

theorem begin_drain_unbound (hb : t.by_anchor[anchor]? = none) :
    t.begin_drain anchor = (t, .keep_wd) := by
  simp only [WdTable.begin_drain, hb]

theorem Mirror.begin_drain (h : Mirror t) : Mirror (t.begin_drain anchor).1 := by
  cases hb : t.by_anchor[anchor]? with
  | none =>
    rw [begin_drain_unbound hb]
    exact h
  | some wd =>
    obtain ⟨entry, he, hin⟩ := (h.bound anchor wd).mp hb
    rw [h.begin_drain_eq hb he]
    constructor
    · intro a wd'
      rw [get_erase]
      by_cases ha : anchor = a
      · subst ha
        simp only [if_true, reduceCtorEq, false_iff]
        intro ⟨e, he', hin'⟩
        rw [get_insert] at he'
        split at he'
        · obtain rfl := Option.some.inj he'
          simp [WdEntry.without] at hin'
        · rename_i hw
          exact hw (h.wd_unique he hin he' hin')
      · rw [if_neg ha, h.bound]
        simp only [get_insert]
        by_cases hw : wd = wd'
        · subst hw
          simp [he, WdEntry.without, Ne.symm ha]
        · simp [hw]
    · intro wd' e he'
      rw [get_insert] at he'
      split at he'
      · obtain rfl := Option.some.inj he'
        exact (h.nodup wd entry he).filter _
      · exact h.nodup wd' e he'
    · intro wd' e he'
      rw [get_insert] at he'
      split at he'
      · obtain rfl := Option.some.inj he'
        simp only [WdEntry.without, List.isEmpty_iff]
      · exact h.drained wd' e he'

/-! ### Erasing -/

theorem get_erase_all (l : List WatchId) (bound : Map WatchId Wd) (a : WatchId) :
    (l.foldl (fun bound anchor => bound.erase anchor) bound)[a]? =
      if a ∈ l then none else bound[a]? := by
  induction l generalizing bound with
  | nil => rfl
  | cons anchor l ih =>
    rw [List.foldl_cons, ih, get_erase]
    by_cases h₁ : a ∈ l
    · simp [h₁]
    · by_cases h₂ : anchor = a
      · simp [h₂]
      · simp [h₁, h₂, Ne.symm h₂]

/-- Erasing an entry unbinds what it lists and nothing else. -/
theorem Mirror.get_on_ignored (h : Mirror t) (wd : Wd) :
    (∀ wd' : Wd, (t.on_ignored wd).1.entries[wd']? = if wd = wd' then none else t.entries[wd']?) ∧
      ∀ a : WatchId, (t.on_ignored wd).1.by_anchor[a]? =
        if t.by_anchor[a]? = some wd then none else t.by_anchor[a]? := by
  cases he : t.entries[wd]? with
  | none =>
    have hout : (t.on_ignored wd).1 = t := by simp only [WdTable.on_ignored, he]
    rw [hout]
    constructor
    · intro wd'
      split
      · rename_i hw
        rw [← hw, he]
      · rfl
    · intro a
      rw [if_neg]
      intro hb
      obtain ⟨entry, he', -⟩ := (h.bound a wd).mp hb
      rw [he] at he'
      cases he'
  | some entry =>
    simp only [WdTable.on_ignored, he]
    constructor
    · intro wd'
      rw [get_erase]
    · intro a
      have hin : a ∈ entry.live ↔ t.by_anchor[a]? = some wd := by
        rw [h.bound]
        simp [he]
      rw [get_erase_all]
      simp only [hin]

theorem Mirror.on_ignored (h : Mirror t) : Mirror (t.on_ignored wd).1 := by
  obtain ⟨hent, hanc⟩ := h.get_on_ignored wd
  constructor
  · intro a wd'
    rw [hanc, hent]
    by_cases hb : t.by_anchor[a]? = some wd
    · rw [if_pos hb]
      simp only [reduceCtorEq, false_iff]
      intro ⟨e, he, hin⟩
      split at he
      · cases he
      · rename_i hw
        exact hw (Option.some.inj (hb.symm.trans ((h.bound a wd').mpr ⟨e, he, hin⟩)))
    · rw [if_neg hb, h.bound]
      by_cases hw : wd = wd'
      · subst hw
        rw [← h.bound]
        simp [hb]
      · simp [hw]
  · intro wd' e he
    rw [hent] at he
    split at he
    · cases he
    · exact h.nodup wd' e he
  · intro wd' e he
    rw [hent] at he
    split at he
    · cases he
    · exact h.drained wd' e he

/-- Entries with nothing on them may go. -/
theorem Mirror.sweep (h : Mirror t) {entries : Map Wd WdEntry}
    (hs : ∀ (wd : Wd) (entry : WdEntry), entries[wd]? = some entry → t.entries[wd]? = some entry)
    (hk : ∀ (wd : Wd) (entry : WdEntry), t.entries[wd]? = some entry → entry.live ≠ [] →
      entries[wd]? = some entry) : Mirror { t with entries := entries } := by
  constructor
  · intro a wd
    rw [h.bound]
    constructor
    · intro ⟨e, he, hin⟩
      exact ⟨e, hk wd e he (List.ne_nil_of_mem hin), hin⟩
    · intro ⟨e, he, hin⟩
      exact ⟨e, hs wd e he, hin⟩
  · exact fun wd e he => h.nodup wd e (hs wd e he)
  · exact fun wd e he => h.drained wd e (hs wd e he)

theorem Mirror.on_loss (h : Mirror t) : Mirror t.on_loss := by
  apply h.sweep
  · intro wd e he
    rw [get_filter, Option.filter_eq_some_iff] at he
    exact he.1
  · intro wd e he hne
    rw [get_filter, Option.filter_eq_some_iff]
    refine ⟨he, ?_⟩
    have hd : e.draining ≠ true := mt (h.drained wd e he).mp hne
    simpa using hd

theorem Mirror.erase_dead (h : Mirror t)
    (hd : ∃ entry, t.entries[wd]? = some entry ∧ entry.draining = true ∧ entry.live = []) :
    Mirror (t.erase_dead wd) := by
  obtain ⟨dead, hdead, -, hnil⟩ := hd
  apply h.sweep
  · intro wd' e he
    rw [get_erase] at he
    split at he
    · cases he
    · exact he
  · intro wd' e he hne
    rw [get_erase, if_neg]
    · exact he
    · intro hw
      rw [← hw] at he
      obtain rfl := Option.some.inj (hdead.symm.trans he)
      exact hne hnil

/-! ### Every run -/

theorem Mirror.step (h : Mirror t) {call : Call} (ha : t.Admits call) : Mirror (t.step call).1 := by
  cases call with
  | register wd anchor => exact h.register ha.1 ha.2
  | alias_anchor wd anchor => exact h.alias_anchor ha.1 ha.2
  | begin_drain anchor => exact h.begin_drain
  | on_ignored wd => exact h.on_ignored
  | on_loss => exact h.on_loss
  | erase_dead wd => exact h.erase_dead ha

theorem Mirror.run (h : Mirror t) {calls : List Call} (hd : t.Drives calls) :
    Mirror (t.run calls) := by
  induction calls generalizing t with
  | nil => exact h
  | cons call calls ih => exact ih (h.step hd.1) hd.2

/-! ### What the table answers -/

theorem Mirror.mem_attributed (h : Mirror t) : a ∈ t.attribute_of wd ↔ t.wd_of a = some wd := by
  rw [WdTable.wd_of, h.bound, WdTable.attribute_of]
  cases t.entries[wd]? <;> simp

theorem Mirror.nodup_attributed (h : Mirror t) : (t.attribute_of wd).Nodup := by
  rw [WdTable.attribute_of]
  cases he : t.entries[wd]? with
  | none => simp
  | some entry => exact h.nodup wd entry he

theorem begin_drain_step {decision : DrainDecision} {call : Call} :
    (t.step call).2 = .drain decision ↔
      ∃ anchor, call = .begin_drain anchor ∧ (t.begin_drain anchor).2 = decision := by
  cases call <;> simp [WdTable.step]

/-- A removal is asked for by the leave of the only anchor a descriptor has. -/
theorem Mirror.removes_iff (h : Mirror t) :
    (t.begin_drain anchor).2 = .remove_wd wd ↔ ∀ a, t.wd_of a = some wd ↔ a = anchor := by
  constructor
  · intro hr a
    cases hb : t.by_anchor[anchor]? with
    | none =>
      rw [begin_drain_unbound hb] at hr
      cases hr
    | some wd' =>
      obtain ⟨entry, he, -⟩ := (h.bound anchor wd').mp hb
      rw [h.begin_drain_eq hb he] at hr
      dsimp only at hr
      split at hr
      · rename_i hl
        cases hr
        rw [← h.mem_attributed, WdTable.attribute_of, he]
        simp [hl]
      · cases hr
  · intro hall
    have hb : t.by_anchor[anchor]? = some wd := (hall anchor).mpr rfl
    obtain ⟨entry, he, hin⟩ := (h.bound anchor wd).mp hb
    have hl : entry.live = [anchor] := by
      apply eq_singleton (h.nodup wd entry he) hin
      intro x hx
      exact (hall x).mp ((h.bound x wd).mpr ⟨entry, he, hx⟩)
    rw [h.begin_drain_eq hb he]
    exact if_pos hl

/-- What a table says of its anchors, and what its calls do to them. -/
structure Exact (t : WdTable) : Prop where
  by_anchor : ∀ (anchor : WatchId) (wd : Wd), t.by_anchor[anchor]? = some wd ↔
    (∃ entry, t.entries[wd]? = some entry ∧ entry.live.count anchor = 1) ∧
      ∀ (wd' : Wd) (entry' : WdEntry), wd' ≠ wd → t.entries[wd']? = some entry' →
        anchor ∉ entry'.live
  draining : ∀ (wd : Wd) (entry : WdEntry), t.entries[wd]? = some entry →
    (entry.draining = true ↔ entry.live = [])
  attributed : ∀ wd anchor, anchor ∈ t.attribute_of wd ↔ t.wd_of anchor = some wd
  once : ∀ wd, (t.attribute_of wd).Nodup
  /-- Registering an anchor and aliasing it bind it, and no other. -/
  bound : ∀ wd anchor a,
    (t.register wd anchor).wd_of a = (if anchor = a then some wd else t.wd_of a) ∧
    (t.alias_anchor wd anchor).wd_of a = (if anchor = a then some wd else t.wd_of a)
  /-- Draining an anchor unbinds it, and no other. -/
  unbound : ∀ anchor a,
    (t.begin_drain anchor).1.wd_of a = if anchor = a then none else t.wd_of a
  silent : ∀ wd, t.is_live wd = false → t.attribute_of wd = []
  /-- Only the leave of a descriptor's last anchor asks for its removal. -/
  removed : ∀ wd call, (t.step call).2 = .drain (.remove_wd wd) ↔
    ∃ anchor, call = .begin_drain anchor ∧ ∀ a, t.wd_of a = some wd ↔ a = anchor
  /-- The kernel's marker unbinds and answers the anchors still bound. -/
  ignored : ∀ wd, (t.on_ignored wd).2 = t.attribute_of wd ∧
    (t.on_ignored wd).1.contains wd = false ∧
    ∀ a, (t.on_ignored wd).1.wd_of a = if t.wd_of a = some wd then none else t.wd_of a
  lost : ∀ a wd, t.on_loss.wd_of a = t.wd_of a ∧
    (t.wd_of a = some wd → t.on_loss.entries[wd]? = t.entries[wd]?)

theorem Mirror.exact (h : Mirror t) : Exact t where
  by_anchor anchor wd := by
    rw [h.bound]
    constructor
    · intro ⟨entry, he, hin⟩
      refine ⟨⟨entry, he, ?_⟩, ?_⟩
      · have hpos := List.count_pos_iff.mpr hin
        have hle := List.nodup_iff_count_le_one.mp (h.nodup wd entry he) anchor
        omega
      · intro wd' entry' hne he' hin'
        exact hne (h.wd_unique he' hin' he hin)
    · intro ⟨⟨entry, he, hc⟩, _⟩
      exact ⟨entry, he, List.count_pos_iff.mp (by omega)⟩
  draining := h.drained
  attributed wd anchor := h.mem_attributed
  once wd := h.nodup_attributed
  bound wd anchor a := ⟨get_insert .., get_insert ..⟩
  unbound anchor a := by
    cases hb : t.by_anchor[anchor]? with
    | none =>
      rw [begin_drain_unbound hb]
      split
      · rename_i ha
        rw [← ha]
        exact hb
      · rfl
    | some wd =>
      obtain ⟨entry, he, -⟩ := (h.bound anchor wd).mp hb
      rw [h.begin_drain_eq hb he]
      exact get_erase ..
  silent wd hl := by
    rw [WdTable.attribute_of]
    cases he : t.entries[wd]? with
    | none => rfl
    | some entry =>
      have hd : entry.draining = true := by simpa [WdTable.is_live, he] using hl
      simpa using (h.drained wd entry he).mp hd
  removed wd call := by
    rw [begin_drain_step]
    constructor
    · intro ⟨anchor, hc, hr⟩
      exact ⟨anchor, hc, h.removes_iff.mp hr⟩
    · intro ⟨anchor, hc, hall⟩
      exact ⟨anchor, hc, h.removes_iff.mpr hall⟩
  ignored wd := by
    obtain ⟨hent, hanc⟩ := h.get_on_ignored wd
    refine ⟨?_, ?_, hanc⟩
    · rw [WdTable.attribute_of, WdTable.on_ignored]
      cases t.entries[wd]? <;> rfl
    · apply contains_false_iff.mpr
      rw [hent, if_pos rfl]
  lost a wd := by
    refine ⟨rfl, ?_⟩
    intro hb
    obtain ⟨entry, he, hin⟩ := (h.bound a wd).mp hb
    have hd : entry.draining ≠ true := by
      rw [ne_eq, h.drained wd entry he]
      exact List.ne_nil_of_mem hin
    rw [he]
    show (t.entries.filter fun _ entry => !entry.draining)[wd]? = some entry
    rw [get_filter, he, Option.filter_some, if_pos (by simpa using hd)]

/-! ### One removal for each registration -/

def WdTable.is_draining (t : WdTable) (wd : Wd) : Bool := (t.entries[wd]?).any WdEntry.draining

theorem is_draining_congr {t' : WdTable} (h : t'.entries[wd]? = t.entries[wd]?) :
    t'.is_draining wd = t.is_draining wd := by
  rw [WdTable.is_draining, WdTable.is_draining, h]

/-- While a descriptor stays mapped it turns draining once, and it is then that its
    removal is asked for. -/
theorem Mirror.step_draining (h : Mirror t) {call : Call} (ha : t.Admits call)
    (hc : t.contains wd = true) (hc' : (t.step call).1.contains wd = true) :
    ((t.step call).1.is_draining wd).toNat = (t.is_draining wd).toNat +
      if (t.step call).2 = .drain (.remove_wd wd) then 1 else 0 := by
  have still : (t.step call).1.entries[wd]? = t.entries[wd]? →
      (t.step call).2 ≠ .drain (.remove_wd wd) →
      ((t.step call).1.is_draining wd).toNat = (t.is_draining wd).toNat +
        if (t.step call).2 = .drain (.remove_wd wd) then 1 else 0 := by
    intro he hr
    rw [is_draining_congr he, if_neg hr, Nat.add_zero]
  obtain ⟨entry, he⟩ := contains_iff.mp hc
  cases call with
  | register wd' anchor =>
    apply still _ nofun
    have hne : wd' ≠ wd := by
      intro hw
      have := ha.1
      rw [hw, hc] at this
      cases this
    show (t.register wd' anchor).entries[wd]? = _
    rw [WdTable.register, get_insert, if_neg hne]
  | alias_anchor wd' anchor =>
    have hd : (t.alias_anchor wd' anchor).is_draining wd = t.is_draining wd := by
      rw [WdTable.is_draining, WdTable.is_draining, WdTable.alias_anchor, get_insert]
      split
      · rename_i hw
        subst hw
        rw [WdTable.entry_or_default, he]
        dsimp only [Option.getD]
        split <;> rfl
      · rfl
    show ((t.alias_anchor wd' anchor).is_draining wd).toNat = _
    rw [hd, if_neg nofun, Nat.add_zero]
  | begin_drain anchor =>
    cases hb : t.by_anchor[anchor]? with
    | none =>
      have hout : t.step (.begin_drain anchor) = (t, .drain .keep_wd) := by
        rw [WdTable.step, begin_drain_unbound hb]
      rw [hout]
      simp
    | some wd' =>
      obtain ⟨entry', he', hin⟩ := (h.bound anchor wd').mp hb
      have hout : t.step (.begin_drain anchor) =
          ({ entries := t.entries.insert wd' (entry'.without anchor)
             by_anchor := t.by_anchor.erase anchor },
            .drain (if entry'.live = [anchor] then .remove_wd wd' else .keep_wd)) := by
        rw [WdTable.step, h.begin_drain_eq hb he']
      by_cases hw : wd' = wd
      · subst hw
        obtain rfl := Option.some.inj (he.symm.trans he')
        have hd : entry.draining = false := by
          rw [Bool.eq_false_iff, ne_eq, h.drained wd' entry he]
          exact List.ne_nil_of_mem hin
        have hbefore : t.is_draining wd' = false := by simp [WdTable.is_draining, he, hd]
        rw [hout, hbefore]
        simp only [WdTable.is_draining, get_insert, if_true, Option.any_some]
        by_cases hl : entry.live = [anchor]
        · simp [hl, WdEntry.without]
        · have hleft : ¬ ∀ x ∈ entry.live, x = anchor := by
            intro hall
            exact hl (eq_singleton (h.nodup wd' entry he) hin hall)
          have hne : (entry.without anchor).draining = false := by
            simpa [WdEntry.without] using hleft
          simp [hl, hne]
      · apply still
        · rw [hout]
          show (t.entries.insert wd' (entry'.without anchor))[wd]? = _
          rw [get_insert, if_neg hw]
        · rw [hout]
          intro hr
          dsimp only at hr
          split at hr
          · injection hr with hr
            injection hr with hr
            exact hw hr
          · injection hr with hr
            cases hr
  | on_ignored wd' =>
    apply still _ nofun
    show (t.on_ignored wd').1.entries[wd]? = _
    rw [(h.get_on_ignored wd').1, if_neg]
    intro hw
    obtain ⟨e, hgone⟩ := contains_iff.mp hc'
    have hgone : (t.on_ignored wd').1.entries[wd]? = some e := hgone
    rw [(h.get_on_ignored wd').1, if_pos hw] at hgone
    cases hgone
  | on_loss =>
    apply still _ nofun
    obtain ⟨e, hleft⟩ := contains_iff.mp hc'
    have hleft' : (t.entries.filter fun _ entry => !entry.draining)[wd]? = some e := hleft
    rw [get_filter, Option.filter_eq_some_iff] at hleft'
    rw [hleft, hleft'.1]
  | erase_dead wd' =>
    apply still _ nofun
    obtain ⟨e, hleft⟩ := contains_iff.mp hc'
    have hleft' : (t.entries.erase wd')[wd]? = some e := hleft
    rw [get_erase] at hleft'
    split at hleft'
    · cases hleft'
    · rw [hleft, hleft']

theorem Mirror.run_draining (h : Mirror t) {calls : List Call} (hd : t.Drives calls)
    (hc : ∀ l, l <+: calls → (t.run l).contains wd = true) :
    ((t.run calls).is_draining wd).toNat = (t.is_draining wd).toNat +
      (t.answers calls).count (.drain (.remove_wd wd)) := by
  induction calls generalizing t with
  | nil => rfl
  | cons call calls ih =>
    have h₀ := hc [] (List.nil_prefix)
    have h₁ := hc [call] (by simp)
    have hstep := h.step_draining hd.1 h₀ h₁
    have hrun := ih (h.step hd.1) hd.2 fun l hl => hc (call :: l) (by simpa using hl)
    rw [WdTable.run_cons, hrun, hstep, WdTable.answers, List.count_cons]
    simp only [beq_iff_eq]
    omega

/-- A mapped descriptor drains when nothing is bound to it. -/
theorem Mirror.is_draining_iff (h : Mirror t) (hc : t.contains wd = true) :
    t.is_draining wd = true ↔ t.attribute_of wd = [] := by
  obtain ⟨entry, he⟩ := contains_iff.mp hc
  simp only [WdTable.is_draining, WdTable.attribute_of, he, Option.any_some, Option.map_some,
    Option.getD_some]
  exact h.drained wd entry he

/-- After every run the table is exact; and from a registration of a descriptor on,
    as long as it stays mapped, its removal was asked for once if no anchor is left
    and not at all if one is. -/
theorem table_is_exact {calls : List Call} (hd : WdTable.new.Drives calls) :
    Exact (WdTable.new.run calls) ∧
      ∀ (earlier later : List Call) (wd : Wd) (anchor : WatchId),
        calls = earlier ++ .register wd anchor :: later →
        (∀ l, l <+: later →
          ((WdTable.new.run (earlier ++ [.register wd anchor])).run l).contains wd = true) →
        ((WdTable.new.run (earlier ++ [.register wd anchor])).answers later).count
            (.drain (.remove_wd wd)) =
          if (WdTable.new.run calls).attribute_of wd = [] then 1 else 0 := by
  refine ⟨(mirror_new.run hd).exact, ?_⟩
  intro earlier later wd anchor hcalls hc
  have hsplit : calls = (earlier ++ [.register wd anchor]) ++ later := by simp [hcalls]
  rw [hsplit, WdTable.drives_append] at hd
  obtain ⟨hd₁, hd₂⟩ := hd
  have hm := mirror_new.run hd₁
  have hrun := hm.run_draining hd₂ hc
  have hfirst := hm.is_draining_iff (hc [] List.nil_prefix)
  have hlast := (hm.run hd₂).is_draining_iff (hc later List.prefix_rfl)
  -- the descriptor was fresh, so its registration leaves one anchor on it
  have hone : (WdTable.new.run (earlier ++ [.register wd anchor])).attribute_of wd ≠ [] := by
    rw [WdTable.run_append]
    intro hnil
    rw [WdTable.drives_append] at hd₁
    have hbound : ((WdTable.new.run earlier).register wd anchor).wd_of anchor = some wd := by
      simp [WdTable.wd_of, WdTable.register]
    have hin : anchor ∈ ((WdTable.new.run earlier).register wd anchor).attribute_of wd :=
      ((mirror_new.run hd₁.1).step hd₁.2.1).mem_attributed.mpr hbound
    have hnil' : ((WdTable.new.run earlier).step (.register wd anchor)).1.attribute_of wd = [] := hnil
    rw [WdTable.step] at hnil'
    rw [hnil'] at hin
    cases hin
  have hfalse : (WdTable.new.run (earlier ++ [.register wd anchor])).is_draining wd = false := by
    rw [Bool.eq_false_iff, ne_eq, hfirst]
    exact hone
  rw [hfalse] at hrun
  have htail := WdTable.new.run_append (earlier ++ [.register wd anchor]) later
  rw [hsplit, htail]
  split
  · rename_i hnil
    rw [hlast.mpr hnil] at hrun
    simpa using hrun.symm
  · rename_i hne
    rw [eq_false_of_ne_true (mt hlast.mp hne)] at hrun
    simpa using hrun.symm

/-- A second anchor comes onto a descriptor, and both leave it. -/
def shared : List Call :=
  [.alias_anchor 3 ⟨2, by decide⟩, .begin_drain ⟨1, by decide⟩, .begin_drain ⟨2, by decide⟩]

/-- Its removal was asked for once. -/
theorem shared_is_exact :
    Exact (WdTable.new.run (.register 3 ⟨1, by decide⟩ :: shared)) ∧
      ((WdTable.new.run [.register 3 ⟨1, by decide⟩]).answers shared).count
        (.drain (.remove_wd 3)) = 1 := by
  have hdrives : WdTable.new.Drives (.register 3 ⟨1, by decide⟩ :: shared) :=
    ⟨⟨by decide +kernel, by decide +kernel⟩, ⟨by decide +kernel, by decide +kernel⟩, trivial,
      trivial, trivial⟩
  have h := table_is_exact hdrives
  have hmapped : ∀ l ∈ shared.inits,
      ((WdTable.new.run [.register 3 ⟨1, by decide⟩]).run l).contains 3 = true := by
    decide +kernel
  have hlast : (WdTable.new.run (.register 3 ⟨1, by decide⟩ :: shared)).attribute_of 3 = [] := by
    decide +kernel
  refine ⟨h.1, ?_⟩
  have hcount := h.2 [] shared 3 ⟨1, by decide⟩ rfl fun l hl => hmapped l ((List.mem_inits _ _).mpr hl)
  rw [hlast, if_pos rfl] at hcount
  exact hcount

end Inotify
