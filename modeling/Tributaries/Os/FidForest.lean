import Tributaries.Os.FidMap

/-! # The admission map as a forest

  What keeps the map a forest under its anchor, whatever is learned,
  forgotten, walked in and admitted: that no step hangs the anchor or a
  mapped directory below itself, and that none forgets the anchor.
-/

open Collections Std Forest

namespace Fanotify

variable {map : FidMap} {anchor k key p : HandleKey} {fid : Fid} {entry : SeedEntry} {walk : Bool}

/-- The directory has a node. -/
def Mapped (map : FidMap) (k : HandleKey) : Prop := ∃ n, map.dirs[k]? = some n

/-- A directory's parent link. -/
def FidMap.up (map : FidMap) (k : HandleKey) : Option HandleKey := (map.dirs[k]?).bind DirNode.parent

theorem up_eq {n : DirNode} (h : map.dirs[k]? = some n) : map.up k = n.parent := by
  rw [FidMap.up, h]
  rfl

theorem mapped_of_up (h : map.up k = some p) : Mapped map k := by
  rw [FidMap.up] at h
  obtain ⟨n, hn, _⟩ := Option.bind_eq_some_iff.mp h
  exact ⟨n, hn⟩

theorem up_none (h : ¬ Mapped map k) : map.up k = none := by
  cases hu : map.up k with
  | none => rfl
  | some p => exact absurd (mapped_of_up hu) h

/-! ### The forest under the anchor -/

structure Rooted (map : FidMap) (anchor : HandleKey) : Prop where
  anchored : Mapped map anchor
  /-- The anchor is the one node without a parent. -/
  top : ∀ k, Mapped map k → (map.up k = none ↔ k = anchor)
  parent_mapped : ∀ k p, map.up k = some p → Mapped map p
  /-- The children sets are the inverse of the parent links. -/
  children : ∀ p n, map.dirs[p]? = some n → ∀ k, k ∈ n.children ↔ map.up k = some p
  grounded : ∀ k, Grounded map.up k

namespace Rooted

/-- What is above a mapped directory is mapped. -/
theorem mapped_above (h : Rooted map anchor) (hk : Mapped map k) (ha : Above map.up key k) :
    Mapped map key := by
  obtain ⟨l, hl, hm⟩ := ha
  exact hl.forall_mem hk (fun _ _ _ => h.parent_mapped _ _) _ hm

/-- Every chain of parents reaches the anchor. -/
theorem above (h : Rooted map anchor) (hk : Mapped map k) : Above map.up anchor k := by
  obtain ⟨l, hl⟩ := (h.grounded k).chain
  obtain ⟨r, hr, hn⟩ := hl.last_root
  have hmr : Mapped map r := hl.forall_mem hk (fun _ _ _ => h.parent_mapped _ _) r hr
  have : r = anchor := (h.top r hmr).mp hn
  exact ⟨l, hl, this ▸ hr⟩

/-- Above the anchor is only the anchor. -/
theorem eq_anchor (h : Rooted map anchor) (ha : Above map.up k anchor) : k = anchor := by
  rcases ha.cases_parent with hk | ⟨p, hp, _⟩
  · exact hk
  · have hn : map.up anchor = none := (h.top anchor h.anchored).mpr rfl
    rw [hn] at hp
    cases hp

end Rooted

/-! ### One insertion -/

theorem get_unlink {dirs : Map HandleKey DirNode} {parent : Option HandleKey} :
    (FidMap.unlink dirs parent key)[k]? =
      (dirs[k]?).map fun n =>
        { n with children := if parent = some k then n.children.erase key else n.children } := by
  cases parent with
  | none => simp [FidMap.unlink]
  | some p =>
    rw [FidMap.unlink, get_modify]
    by_cases h : p = k <;> simp [h]

theorem get_link {dirs : Map HandleKey DirNode} {parent : Option HandleKey} :
    (FidMap.link dirs parent key)[k]? =
      (dirs[k]?).map fun n =>
        { n with children := if parent = some k then n.children.insert key else n.children } := by
  cases parent with
  | none => simp [FidMap.link]
  | some p =>
    rw [FidMap.link, get_modify]
    by_cases h : p = k <;> simp [h]

/-- A node's children once `entry` is inserted. -/
def FidMap.rehung (map : FidMap) (entry : SeedEntry) (k : HandleKey) (children : OSet HandleKey) :
    OSet HandleKey :=
  let key := entry.fid.handle
  let parent := entry.parent.map Fid.handle
  let children := if map.up key = some k ∧ map.up key ≠ parent then children.erase key else children
  if parent = some k then children.insert key else children

theorem insert_dir_other (hk : k ≠ entry.fid.handle) :
    (map.insert_dir entry walk).dirs[k]? =
      (map.dirs[k]?).map fun n => { n with children := map.rehung entry k n.children } := by
  have hk' : ¬ entry.fid.handle = k := fun h => hk h.symm
  simp only [FidMap.insert_dir, FidMap.bump, get_insert, if_neg hk', get_link]
  cases hx : map.dirs[entry.fid.handle]? with
  | none =>
    have hu : map.up entry.fid.handle = none := by rw [FidMap.up, hx]; rfl
    simp [FidMap.rehung, hu]
  | some x =>
    have hu : map.up entry.fid.handle = x.parent := up_eq hx
    by_cases hp : x.parent = entry.parent.map Fid.handle
    · simp [FidMap.rehung, hu, hp]
    · simp only [if_neg hp, get_unlink, FidMap.rehung, hu]
      cases map.dirs[k]? with
      | none => rfl
      | some n => simp [hp]

/-- The node of an inserted directory. -/
def FidMap.inserted (map : FidMap) (entry : SeedEntry) (walk : Bool) : DirNode where
  parent := entry.parent.map Fid.handle
  name := entry.name
  children := ((map.dirs[entry.fid.handle]?).map DirNode.children).getD ∅
  pending_walk := walk || (map.dirs[entry.fid.handle]?).any DirNode.pending_walk

theorem insert_dir_self :
    (map.insert_dir entry walk).dirs[entry.fid.handle]? = some (map.inserted entry walk) := by
  simp only [FidMap.insert_dir, FidMap.bump, get_insert, if_true, FidMap.inserted]
  cases map.dirs[entry.fid.handle]? <;> simp

theorem mapped_insert_dir :
    Mapped (map.insert_dir entry walk) k ↔ k = entry.fid.handle ∨ Mapped map k := by
  by_cases hk : k = entry.fid.handle
  · subst hk
    simp [Mapped, insert_dir_self]
  · simp [Mapped, insert_dir_other hk, hk]

theorem up_insert_dir :
    (map.insert_dir entry walk).up k =
      if k = entry.fid.handle then entry.parent.map Fid.handle else map.up k := by
  by_cases hk : k = entry.fid.handle
  · subst hk
    rw [if_pos rfl, up_eq insert_dir_self]
    rfl
  · rw [if_neg hk, FidMap.up, insert_dir_other hk, FidMap.up]
    cases map.dirs[k]? <;> rfl

namespace Rooted

/-- A directory hung below one it is not above leaves a forest. -/
theorem insert_dir (h : Rooted map anchor) (hp : entry.parent.map Fid.handle = some p)
    (hm : Mapped map p) (hk : entry.fid.handle ≠ anchor)
    (hc : Mapped map entry.fid.handle → ¬ Above map.up entry.fid.handle p) :
    Rooted (map.insert_dir entry walk) anchor := by
  have hc' : ¬ Above map.up entry.fid.handle p := by
    intro ha
    exact hc (h.mapped_above hm ha) ha
  refine ⟨?_, ?_, ?_, ?_, ?_⟩
  · exact mapped_insert_dir.mpr (.inr h.anchored)
  · intro k hk'
    rw [up_insert_dir]
    by_cases hkey : k = entry.fid.handle
    · rw [if_pos hkey, hp]
      simp [hkey, hk]
    · rw [if_neg hkey]
      exact h.top k ((mapped_insert_dir.mp hk').resolve_left hkey)
  · intro k q hq
    rw [up_insert_dir] at hq
    apply mapped_insert_dir.mpr
    split at hq
    · rw [hp] at hq
      exact .inr (Option.some.inj hq ▸ hm)
    · exact .inr (h.parent_mapped k q hq)
  · intro q n hn k
    rw [up_insert_dir]
    by_cases hq : q = entry.fid.handle
    · -- the node itself keeps its children
      subst hq
      rw [insert_dir_self] at hn
      obtain rfl := Option.some.inj hn
      have hne : p ≠ entry.fid.handle := by
        rintro rfl
        exact hc' (.refl (h.grounded _))
      cases hx : map.dirs[entry.fid.handle]? with
      | none =>
        have hno : ∀ j, map.up j ≠ some entry.fid.handle := by
          intro j hj
          obtain ⟨n, hn⟩ := h.parent_mapped _ _ hj
          rw [hx] at hn
          cases hn
        have hnot : ¬ (if k = entry.fid.handle then some p else map.up k) =
            some entry.fid.handle := by
          split
          · exact fun e => hne (Option.some.inj e)
          · exact hno k
        simpa [FidMap.inserted, hx, hp] using hnot
      | some x =>
        have hself : map.up entry.fid.handle ≠ some entry.fid.handle := by
          intro hs
          exact (h.grounded _).parent_ne hs rfl
        have hx' := h.children _ x hx k
        by_cases hke : k = entry.fid.handle
        · subst hke
          simp [FidMap.inserted, hx, hp, hne, hx', hself]
        · simp [FidMap.inserted, hx, hx', hke]
    · rw [insert_dir_other hq] at hn
      obtain ⟨m, hm', rfl⟩ := Option.map_eq_some_iff.mp hn
      have hx := h.children q m hm' k
      by_cases hke : k = entry.fid.handle
      · subst hke
        rw [if_pos rfl, hp]
        simp only [FidMap.rehung, hp]
        by_cases hpq : p = q
        · simp [hpq]
        · by_cases hu : map.up entry.fid.handle = some q
          · have : some q ≠ some p := fun e => hpq (Option.some.inj e).symm
            simp [hu, hpq, this]
          · simp [hu, hpq, hx]
      · rw [if_neg hke]
        simp only [FidMap.rehung]
        rw [← hx]
        have hke' : ¬ entry.fid.handle = k := fun e => hke e.symm
        split <;> split <;> simp [hke']
  · intro k
    refine (h.grounded k).rekey (h.grounded p) hc' (c := entry.fid.handle) ?_ ?_
    · rw [up_insert_dir, if_pos rfl, hp]
    · intro y hy
      rw [up_insert_dir, if_neg hy]

end Rooted

/-! ### Forgetting a directory -/

/-- What is reached from a directory through the children sets is what is below it. -/
theorem Rooted.reached_iff (h : Rooted map anchor) :
    Reached (FidMap.unlink map.dirs (map.up key) key) [key] k ↔ Above map.up key k := by
  constructor
  · intro hr
    induction hr with
    | start hm =>
      rw [List.mem_singleton.mp hm]
      exact .refl (h.grounded key)
    | @child x c n _ hn hc ih =>
      rw [get_unlink] at hn
      obtain ⟨m, hm, rfl⟩ := Option.map_eq_some_iff.mp hn
      have hcm : c ∈ m.children := by
        dsimp only at hc
        split at hc
        · exact (mem_erase_iff.mp hc).2
        · exact hc
      exact .step ((h.children x m hm c).mp hcm) ih
  · intro ha
    obtain ⟨l, hl, hm⟩ := ha
    induction hl with
    | root => exact List.mem_singleton.mp hm ▸ .start (by simp)
    | @step x q l hx hq ih =>
      by_cases hxk : x = key
      · exact hxk ▸ .start (by simp)
      · have hkl : key ∈ l := (List.mem_cons.mp hm).resolve_left (Ne.symm hxk)
        obtain ⟨n, hn⟩ := h.parent_mapped x q hx
        have hc : x ∈ n.children := (h.children q n hn x).mpr hx
        refine .child (ih hkl) (by rw [get_unlink, hn]; rfl) ?_
        dsimp only
        split
        · exact mem_erase_iff.mpr ⟨Ne.symm hxk, hc⟩
        · exact hc

theorem forget_of_not_mapped (h : ¬ Mapped map fid.handle) : map.forget fid = map := by
  have hn : map.dirs[fid.handle]? = none := Option.eq_none_iff_forall_not_mem.mpr
    fun n hn => h ⟨n, hn⟩
  simp only [FidMap.forget, hn, FidMap.prune_subtree, prune_from_gone hn, prune_from_nil]
  rfl

theorem Rooted.erase_children {n : DirNode} (h : Rooted map anchor) (hn : map.dirs[k]? = some n)
    (hu : map.up key ≠ some k) : n.children.erase key = n.children := by
  refine ExtTreeSet.ext_mem fun x => ?_
  rw [mem_erase_iff]
  refine ⟨And.right, fun hx => ⟨?_, hx⟩⟩
  rintro rfl
  exact hu ((h.children k n hn key).mp hx)

/-- Forgetting a directory removes exactly what is below it; the rest keeps its
    node but for the link to the directory. -/
theorem Rooted.get_forget (h : Rooted map anchor) (k : HandleKey) :
    (Mapped map fid.handle → Above map.up fid.handle k → (map.forget fid).dirs[k]? = none) ∧
      ((Mapped map fid.handle → ¬ Above map.up fid.handle k) →
        (map.forget fid).dirs[k]? = (map.dirs[k]?).map fun n =>
          { n with children := n.children.erase fid.handle }) := by
  by_cases hm : Mapped map fid.handle
  · obtain ⟨x, hx⟩ := hm
    have hu : x.parent = map.up fid.handle := (up_eq hx).symm
    have hf : (map.forget fid).dirs =
        (prune_from (FidMap.unlink map.dirs (map.up fid.handle) fid.handle) [fid.handle] false).1 := by
      simp only [FidMap.forget, hx, hu, FidMap.prune_subtree]
      split <;> rfl
    have hspec := prune_from_spec (FidMap.unlink map.dirs (map.up fid.handle) fid.handle)
      [fid.handle] false k
    rw [h.reached_iff] at hspec
    rw [hf]
    refine ⟨fun _ => hspec.1, fun hn => ?_⟩
    rw [hspec.2 (hn ⟨x, hx⟩), get_unlink]
    cases hk : map.dirs[k]? with
    | none => rfl
    | some n =>
      by_cases hp : map.up fid.handle = some k
      · simp [hp]
      · simp [hp, h.erase_children hk hp]
  · rw [forget_of_not_mapped hm]
    refine ⟨fun h' => absurd h' hm, fun _ => ?_⟩
    cases hk : map.dirs[k]? with
    | none => rfl
    | some n =>
      have hp : map.up fid.handle ≠ some k := by
        rw [up_none hm]
        nofun
      simp [h.erase_children hk hp]

theorem Rooted.mapped_forget (h : Rooted map anchor) (hm : Mapped map fid.handle) :
    Mapped (map.forget fid) k ↔ Mapped map k ∧ ¬ Above map.up fid.handle k := by
  by_cases ha : Above map.up fid.handle k
  · simp [Mapped, (h.get_forget k).1 hm ha, ha]
  · simp [Mapped, (h.get_forget k).2 fun _ => ha, ha]

theorem Rooted.up_forget (h : Rooted map anchor) (hm : Mapped map fid.handle) :
    (map.forget fid).up k = map.up k ∨ (map.forget fid).up k = none := by
  by_cases ha : Above map.up fid.handle k
  · right
    rw [FidMap.up, (h.get_forget k).1 hm ha]
    rfl
  · left
    rw [FidMap.up, (h.get_forget k).2 fun _ => ha, FidMap.up]
    cases map.dirs[k]? <;> rfl

theorem Rooted.up_forget_of_not_above (h : Rooted map anchor)
    (ha : ¬ Above map.up fid.handle k) : (map.forget fid).up k = map.up k := by
  rw [FidMap.up, (h.get_forget k).2 fun _ => ha, FidMap.up]
  cases map.dirs[k]? <;> rfl

theorem Rooted.forget (h : Rooted map anchor) (hk : fid.handle ≠ anchor) :
    Rooted (map.forget fid) anchor := by
  by_cases hm : Mapped map fid.handle
  · have hanchor : ¬ Above map.up fid.handle anchor := fun ha => hk (h.eq_anchor ha)
    refine ⟨?_, ?_, ?_, ?_, ?_⟩
    · exact (h.mapped_forget hm).mpr ⟨h.anchored, hanchor⟩
    · intro k hk'
      obtain ⟨hk', ha⟩ := (h.mapped_forget hm).mp hk'
      rw [h.up_forget_of_not_above ha]
      exact h.top k hk'
    · intro k p hp
      obtain ⟨_, ha⟩ := (h.mapped_forget hm).mp (mapped_of_up hp)
      rw [h.up_forget_of_not_above ha] at hp
      exact (h.mapped_forget hm).mpr ⟨h.parent_mapped k p hp, fun hp' => ha (.step hp hp')⟩
    · intro p n hn k
      obtain ⟨hp, ha⟩ := (h.mapped_forget hm).mp ⟨n, hn⟩
      rw [(h.get_forget p).2 fun _ => ha] at hn
      obtain ⟨x, hx, rfl⟩ := Option.map_eq_some_iff.mp hn
      rw [mem_erase_iff, h.children p x hx k]
      by_cases hka : Above map.up fid.handle k
      · -- only the directory itself hangs below one that stays
        have hnone : (map.forget fid).up k = none := by
          rw [FidMap.up, (h.get_forget k).1 hm hka]
          rfl
        rw [hnone]
        refine ⟨fun hc => ?_, nofun⟩
        exfalso
        rcases hka.cases_parent with he | ⟨q, hq, hqa⟩
        · exact hc.1 he
        · rw [hc.2] at hq
          exact ha (Option.some.inj hq ▸ hqa)
      · rw [h.up_forget_of_not_above hka]
        refine ⟨And.right, fun hu => ⟨?_, hu⟩⟩
        rintro rfl
        exact hka (.refl (h.grounded _))
    · intro k
      exact (h.grounded k).prune fun y => h.up_forget hm
  · rw [forget_of_not_mapped hm]
    exact h

/-! ### Paths -/

/-- The path of a chain, nearest directory first. -/
def FidMap.spell (map : FidMap) : List HandleKey → PathBuf
  | [] => []
  | [k] => ((map.dirs[k]?).map DirNode.name).getD []
  | k :: l => (map.spell l).push (((map.dirs[k]?).map DirNode.name).getD [])

theorem resolve_from_chain {l : List HandleKey} (hl : Chain map.up k l) (hk : Mapped map k)
    (hp : ∀ k p, map.up k = some p → Mapped map p) (components : List OsString) {guard : Nat}
    (hg : l.length ≤ guard) :
    resolve_from map.dirs guard components k = some (components.foldl PathBuf.push (map.spell l)) := by
  induction hl generalizing guard components with
  | @root k hu =>
    obtain ⟨n, hn⟩ := hk
    obtain ⟨g, rfl⟩ : ∃ g, guard = g + 1 := ⟨guard - 1, by simp at hg; omega⟩
    rw [up_eq hn] at hu
    simp [resolve_from, hn, hu, FidMap.spell]
  | @step k q l hu hq ih =>
    obtain ⟨n, hn⟩ := hk
    obtain ⟨g, rfl⟩ : ∃ g, guard = g + 1 := ⟨guard - 1, by simp at hg; omega⟩
    have hu' := hu
    rw [up_eq hn] at hu'
    obtain ⟨y, ys, rfl⟩ := List.exists_cons_of_ne_nil hq.ne_nil
    simp only [resolve_from, hn, hu']
    rw [ih (hp _ _ hu) (n.name :: components) (by simp at hg ⊢; omega)]
    simp [FidMap.spell, hn]

namespace Rooted

/-- Every mapped directory's path is found within the guard. -/
theorem resolve_chain {l : List HandleKey} (h : Rooted map anchor) (hk : Mapped map k)
    (hl : Chain map.up k l) : map.resolve k = some (map.spell l) := by
  have hlen : l.length ≤ map.dirs.size := by
    apply length_le_size hl.nodup
    intro x hx
    exact contains_iff.mpr (hl.forall_mem hk (fun _ _ _ => h.parent_mapped _ _) x hx)
  exact resolve_from_chain hl hk h.parent_mapped [] (by omega)

theorem resolve_isSome (h : Rooted map anchor) : (map.resolve k).isSome ↔ Mapped map k := by
  constructor
  · intro hs
    cases hn : map.dirs[k]? with
    | none => simp [FidMap.resolve, resolve_from, hn] at hs
    | some n => exact ⟨n, hn⟩
  · intro hk
    obtain ⟨l, hl⟩ := (h.grounded k).chain
    rw [h.resolve_chain hk hl]
    rfl

/-- A directory's path is its parent's with its own name. -/
theorem resolve_step {n : DirNode} (h : Rooted map anchor) (hn : map.dirs[k]? = some n)
    (hp : n.parent = some p) :
    ∃ path, map.resolve p = some path ∧ map.resolve k = some (path.push n.name) := by
  have hu : map.up k = some p := (up_eq hn).trans hp
  have hm : Mapped map p := h.parent_mapped k p hu
  obtain ⟨l, hl⟩ := (h.grounded p).chain
  refine ⟨map.spell l, h.resolve_chain hm hl, ?_⟩
  rw [h.resolve_chain ⟨n, hn⟩ (.step hu hl)]
  obtain ⟨y, ys, rfl⟩ := List.exists_cons_of_ne_nil hl.ne_nil
  simp [FidMap.spell, hn]

/-- Admission changes nothing. -/
theorem admit_fid (h : Rooted map anchor) : (map.admit_fid fid).2 = map := by
  rw [FidMap.admit_fid]
  cases hr : map.resolve fid.handle with
  | some path => rfl
  | none =>
    have hk : ¬ Mapped map fid.handle := by
      rw [← h.resolve_isSome, hr]
      simp
    have hn : map.dirs[fid.handle]? = none := Option.eq_none_iff_forall_not_mem.mpr
      fun n hn => hk ⟨n, hn⟩
    simp [FidMap.evict_orphan, hn]

end Rooted

/-! ### A move in place -/

/-- The directory `key` hangs below `dir` under `name`, its subtree came along, and
    nothing else moved. -/
structure Moved (map map' : FidMap) (key dir : HandleKey) (name : OsString) : Prop where
  node : ∃ n n', map.dirs[key]? = some n ∧ map'.dirs[key]? = some n' ∧ n'.parent = some dir ∧
    n'.name = name ∧ (n.pending_walk = true → n'.pending_walk = true)
  others : ∀ k, k ≠ key →
    (map'.dirs[k]?).map (fun n => (n.parent, n.name, n.pending_walk)) =
      (map.dirs[k]?).map fun n => (n.parent, n.name, n.pending_walk)
  unmoved : ∀ k, ¬ Above map.up key k → map'.resolve k = map.resolve k
  landing : ∃ base, map.resolve dir = some base ∧ map'.resolve key = some (PathBuf.push base name)
  subtree : ∀ k, Mapped map k → Above map.up key k →
    ∃ (suffix : List OsString) (source destination : PathBuf),
    map.resolve key = some source ∧ map'.resolve key = some destination ∧
      map.resolve k = some (suffix.foldl PathBuf.push source) ∧
        map'.resolve k = some (suffix.foldl PathBuf.push destination)

/-- What is gone is what was below the directory. -/
structure Pruned (map map' : FidMap) (key : HandleKey) : Prop where
  gone : ∀ k, Mapped map' k ↔ Mapped map k ∧ ¬ Above map.up key k
  rest : ∀ k, ¬ Above map.up key k →
    (map'.dirs[k]?).map (fun n => (n.parent, n.name, n.pending_walk)) =
      (map.dirs[k]?).map fun n => (n.parent, n.name, n.pending_walk)

namespace Rooted

theorem pruned (h : Rooted map anchor) (fid : Fid) : Pruned map (map.forget fid) fid.handle where
  gone := by
    intro k
    by_cases hm : Mapped map fid.handle
    · exact h.mapped_forget hm
    · rw [forget_of_not_mapped hm]
      exact ⟨fun hk => ⟨hk, fun ha => hm (h.mapped_above hk ha)⟩, And.left⟩
  rest := by
    intro k ha
    rw [(h.get_forget k).2 fun _ => ha]
    cases map.dirs[k]? <;> rfl

/-- The chain of a directory that does not move is spelled as before. -/
theorem spell_insert_dir {l : List HandleKey} (hk : entry.fid.handle ∉ l) :
    (map.insert_dir entry walk).spell l = map.spell l := by
  have hname : ∀ x ∈ l, ((map.insert_dir entry walk).dirs[x]?).map DirNode.name =
      (map.dirs[x]?).map DirNode.name := by
    intro x hx
    rw [insert_dir_other fun e => hk (e ▸ hx)]
    cases map.dirs[x]? <;> rfl
  induction l with
  | nil => rfl
  | cons x l ih =>
    have ih' := ih (fun hl => hk (by simp [hl])) fun y hy => hname y (by simp [hy])
    have hx := hname x (by simp)
    cases l with
    | nil => simp [FidMap.spell, hx]
    | cons y ys =>
      show (FidMap.spell _ (y :: ys)).push _ = (FidMap.spell _ (y :: ys)).push _
      rw [ih', hx]

theorem resolve_insert_dir (h : Rooted map anchor)
    (h' : Rooted (map.insert_dir entry walk) anchor)
    (ha : ¬ Above map.up entry.fid.handle k) :
    (map.insert_dir entry walk).resolve k = map.resolve k := by
  have hke : k ≠ entry.fid.handle := by
    rintro rfl
    exact ha (.refl (h.grounded _))
  have hmap : Mapped (map.insert_dir entry walk) k ↔ Mapped map k := by
    rw [mapped_insert_dir]
    simp [hke]
  by_cases hk : Mapped map k
  · obtain ⟨l, hl⟩ := (h.grounded k).chain
    have hnot : entry.fid.handle ∉ l := fun hm => ha ⟨l, hl, hm⟩
    have hl' : Chain (map.insert_dir entry walk).up k l := by
      apply hl.congr
      intro y hy
      rw [up_insert_dir, if_neg]
      rintro rfl
      exact hnot hy
    rw [h.resolve_chain hk hl, h'.resolve_chain (hmap.mpr hk) hl', spell_insert_dir hnot]
  · have hn : map.resolve k = none := by
      rw [← Option.not_isSome_iff_eq_none, h.resolve_isSome]
      exact hk
    rw [hn, ← Option.not_isSome_iff_eq_none, h'.resolve_isSome, hmap]
    exact hk

/-- A mapped directory hung below one that is not under it takes exactly its
    subtree along. -/
theorem moved {dir : Fid} {name : OsString} (h : Rooted map anchor) (hd : Mapped map dir.handle)
    (hk : Mapped map fid.handle) (hc : ¬ Above map.up fid.handle dir.handle) :
    Moved map (map.insert_dir { fid, parent := some dir, name } walk) fid.handle dir.handle name := by
  have hne : fid.handle ≠ anchor := by
    intro he
    exact hc (he ▸ h.above hd)
  have h' : Rooted (map.insert_dir { fid, parent := some dir, name } walk) anchor :=
    h.insert_dir rfl hd hne fun _ => hc
  have hself : (map.insert_dir { fid, parent := some dir, name } walk).dirs[fid.handle]? =
      some (map.inserted { fid, parent := some dir, name } walk) := insert_dir_self
  obtain ⟨n, hn⟩ := hk
  have hland : ∃ base, map.resolve dir.handle = some base ∧
      (map.insert_dir { fid, parent := some dir, name } walk).resolve fid.handle =
        some (PathBuf.push base name) := by
    obtain ⟨base, hb, hb'⟩ := h'.resolve_step hself rfl
    rw [h.resolve_insert_dir h' hc] at hb
    exact ⟨base, hb, hb'⟩
  refine ⟨?_, ?_, ?_, hland, ?_⟩
  · refine ⟨n, _, hn, hself, rfl, rfl, fun hw => ?_⟩
    show (walk || (map.dirs[fid.handle]?).any DirNode.pending_walk) = true
    simp [hn, hw]
  · intro k hk
    rw [insert_dir_other hk]
    cases map.dirs[k]? <;> rfl
  · intro k hk
    exact h.resolve_insert_dir h' hk
  · intro k hk ha
    obtain ⟨l, hl, hm⟩ := ha
    obtain ⟨source, hs⟩ := Option.isSome_iff_exists.mp (h.resolve_isSome.mpr ⟨n, hn⟩)
    obtain ⟨base, _, hd'⟩ := hland
    -- down the chain from the directory, every name is pushed on both sides
    induction hl with
    | root =>
      obtain rfl := List.mem_singleton.mp hm
      exact ⟨[], source, _, hs, hd', hs, hd'⟩
    | @step x q l hx hq ih =>
      by_cases hxk : x = fid.handle
      · exact ⟨[], source, _, hs, hd', hxk ▸ hs, hxk ▸ hd'⟩
      · have hml : fid.handle ∈ l := (List.mem_cons.mp hm).resolve_left (Ne.symm hxk)
        obtain ⟨suffix, src, dst, hsrc, hdst, hq1, hq2⟩ := ih (h.parent_mapped x q hx) hml
        obtain ⟨m, hm'⟩ := hk
        have hp : m.parent = some q := (up_eq hm').symm.trans hx
        obtain ⟨path, hpq, hpx⟩ := h.resolve_step hm' hp
        have hx' : (map.insert_dir { fid, parent := some dir, name } walk).dirs[x]? = _ :=
          (insert_dir_other hxk).trans (congrArg _ hm')
        obtain ⟨path', hpq', hpx'⟩ := h'.resolve_step hx' hp
        refine ⟨suffix ++ [m.name], src, dst, hsrc, hdst, ?_, ?_⟩
        · rw [hpx, List.foldl_append, ← Option.some.inj (hq1.symm.trans hpq)]
          rfl
        · rw [hpx', List.foldl_append, ← Option.some.inj (hq2.symm.trans hpq')]
          rfl

end Rooted

/-! ### Runs -/

/-- What a walk lists: parents before their children, and no directory twice. -/
def Walked : List HandleKey → List SeedEntry → Prop
  | _, [] => True
  | seen, entry :: entries =>
    entry.fid.handle ∉ seen ∧ (∃ p ∈ seen, entry.parent.map Fid.handle = some p) ∧
      Walked (entry.fid.handle :: seen) entries

/-- The walk of a whole root: the anchor, then the directories below it. -/
def Listing (anchor : HandleKey) : List SeedEntry → Prop
  | [] => False
  | entry :: entries => entry.fid.handle = anchor ∧ entry.parent = none ∧ Walked [anchor] entries

inductive Op where
  | learn (dir_fid : Fid) (name : List UInt8) (child_fid : Option Fid)
  | learn_moved_in (dir_fid : Fid) (name : List UInt8) (child_fid : Fid)
  | forget (fid : Fid)
  | admit_fid (fid : Fid)
  | seed (entries : List SeedEntry)
  | clear_pending_walk (fid : Fid)

namespace Op

def apply (map : FidMap) : Op → FidMap
  | learn dir_fid name child_fid => map.learn dir_fid name child_fid
  | learn_moved_in dir_fid name child_fid => map.learn_moved_in dir_fid name child_fid
  | forget fid => map.forget fid
  | admit_fid fid => (map.admit_fid fid).2
  | seed entries => map.seed entries
  | clear_pending_walk fid => map.clear_pending_walk fid

/-- A subtree is walked in below the mapped directory it was moved to. -/
def Issued (map : FidMap) : Op → Prop
  | seed entries => ∃ moved, Mapped map moved ∧ Walked [moved] entries
  | _ => True

end Op

/-- No mapped directory is hung below itself. -/
def Clear (map : FidMap) (dir child : HandleKey) : Prop :=
  Mapped map dir → Mapped map child → ¬ Above map.up child dir

def ClearAll (map : FidMap) : List SeedEntry → Prop
  | [] => True
  | entry :: entries =>
    (∀ p, entry.parent.map Fid.handle = some p → Clear map p entry.fid.handle) ∧
      ClearAll (map.insert_dir entry false) entries

/-- The step neither hangs a mapped directory below itself (and so not the anchor
    anywhere) nor forgets the anchor. -/
def Op.Contained (map : FidMap) : Op → Prop
  | learn dir_fid name (some child_fid) =>
    os_name name ≠ none → Clear map dir_fid.handle child_fid.handle
  | learn_moved_in dir_fid name child_fid =>
    os_name name ≠ none → Clear map dir_fid.handle child_fid.handle
  | forget fid => map.is_root fid = false
  | seed entries => ClearAll map entries
  | _ => True

/-- The maps of the runs whose steps are all contained, with their anchors. -/
inductive Run : FidMap → HandleKey → Prop where
  | seed {entries : List SeedEntry} {anchor : HandleKey} (h : Listing anchor entries) :
    Run (FidMap.new.seed entries) anchor
  | reseed {map : FidMap} {anchor anchor' : HandleKey} {entries : List SeedEntry}
    (h : Run map anchor) (hl : Listing anchor' entries) : Run (map.reseed entries) anchor'
  | step {map : FidMap} {anchor : HandleKey} {op : Op} (h : Run map anchor) (hi : op.Issued map)
    (hc : op.Contained map) : Run (op.apply map) anchor

namespace Rooted

theorem is_root_iff (h : Rooted map anchor) : map.is_root fid = true ↔ fid.handle = anchor := by
  constructor
  · intro hr
    simp only [FidMap.is_root, Option.any_eq_true, Option.isNone_iff_eq_none] at hr
    obtain ⟨n, hn, hp⟩ := hr
    exact (h.top _ ⟨n, hn⟩).mp ((up_eq hn).trans hp)
  · intro he
    obtain ⟨n, hn⟩ := h.anchored
    have hu : map.up anchor = none := (h.top anchor h.anchored).mpr rfl
    rw [up_eq hn] at hu
    simp [FidMap.is_root, he, hn, hu]

theorem insert_clear (h : Rooted map anchor) (hp : entry.parent.map Fid.handle = some p)
    (hm : Mapped map p) (hc : Clear map p entry.fid.handle) :
    Rooted (map.insert_dir entry walk) anchor := by
  refine h.insert_dir hp hm (fun he => ?_) (hc hm)
  exact hc hm (he ▸ h.anchored) (he ▸ h.above hm)

theorem seed {seen : List HandleKey} {entries : List SeedEntry} (h : Rooted map anchor)
    (hs : ∀ k ∈ seen, Mapped map k) (hw : Walked seen entries) (hc : ClearAll map entries) :
    Rooted (map.seed entries) anchor := by
  induction entries generalizing map seen with
  | nil => exact h
  | cons entry entries ih =>
    obtain ⟨_, ⟨p, hp, hpar⟩, hw⟩ := hw
    refine ih (h.insert_clear hpar (hs p hp) (hc.1 p hpar)) ?_ hw hc.2
    intro k hk
    exact mapped_insert_dir.mpr ((List.mem_cons.mp hk).imp_right (hs k))

/-- A directory the map does not know is below nothing. -/
theorem clear_fresh {seen : List HandleKey} {entries : List SeedEntry}
    (hs : ∀ k, Mapped map k → k ∈ seen) (hw : Walked seen entries) : ClearAll map entries := by
  induction entries generalizing map seen with
  | nil => trivial
  | cons entry entries ih =>
    obtain ⟨hn, _, hw⟩ := hw
    refine ⟨fun p _ _ hm => absurd (hs _ hm) hn, ih ?_ hw⟩
    intro k hk
    exact List.mem_cons.mpr ((mapped_insert_dir.mp hk).imp_right (hs k))

/-- A listing seeded into an empty map gives the forest it lists. -/
theorem listing {entries : List SeedEntry} (h0 : map.dirs = ∅) (hl : Listing anchor entries) :
    Rooted (map.seed entries) anchor := by
  cases entries with
  | nil => exact hl.elim
  | cons entry entries =>
    obtain ⟨rfl, hp, hw⟩ := hl
    have hno : ∀ k, ¬ Mapped map k := by
      intro k hk
      obtain ⟨n, hn⟩ := hk
      simp [h0] at hn
    have hm : ∀ k, Mapped (map.insert_dir entry false) k ↔ k = entry.fid.handle := by
      intro k
      rw [mapped_insert_dir]
      simp [hno k]
    have hu : ∀ k, (map.insert_dir entry false).up k = none := by
      intro k
      rw [up_insert_dir, hp, up_none (hno k)]
      simp
    have hr : Rooted (map.insert_dir entry false) entry.fid.handle := by
      refine ⟨(hm _).mpr rfl, ?_, ?_, ?_, fun k => .root (hu k)⟩
      · intro k hk
        simp [hu, (hm k).mp hk]
      · intro k p hk
        rw [hu] at hk
        cases hk
      · intro p n hn k
        obtain rfl := (hm p).mp ⟨n, hn⟩
        rw [insert_dir_self] at hn
        obtain rfl := Option.some.inj hn
        simp [hu, FidMap.inserted, h0]
    exact hr.seed (by simp [hm]) hw (clear_fresh (by simp [hm]) hw)

theorem learn_inner {name : List UInt8} {dir : Fid} {child : Option Fid} (h : Rooted map anchor)
    (hc : ∀ c, child = some c → os_name name ≠ none → Clear map dir.handle c.handle) :
    Rooted (map.learn_inner dir name child walk) anchor := by
  cases child with
  | none => exact h
  | some c =>
    simp only [FidMap.learn_inner]
    split
    · next hd =>
      cases hn : os_name name with
      | none => exact h
      | some n =>
        have hm : Mapped map dir.handle := contains_iff.mp hd
        exact h.insert_clear rfl hm (hc c rfl (by simp [hn]))
    · exact h

theorem clear_pending_walk (h : Rooted map anchor) : Rooted (map.clear_pending_walk fid) anchor := by
  have hget : ∀ k : HandleKey, (map.clear_pending_walk fid).dirs[k]? = (map.dirs[k]?).map fun n =>
      { n with pending_walk := if fid.handle = k then false else n.pending_walk } := by
    intro k
    rw [FidMap.clear_pending_walk, get_modify]
    by_cases hk : fid.handle = k <;> simp [hk]
  have hm : ∀ k, Mapped (map.clear_pending_walk fid) k ↔ Mapped map k := by
    intro k
    simp [Mapped, hget]
  have hu : (map.clear_pending_walk fid).up = map.up := by
    funext k
    rw [FidMap.up, hget, FidMap.up]
    cases map.dirs[k]? <;> rfl
  refine ⟨(hm _).mpr h.anchored, ?_, ?_, ?_, hu ▸ h.grounded⟩
  · intro k hk
    rw [hu]
    exact h.top k ((hm k).mp hk)
  · intro k p hk
    rw [hu] at hk
    exact (hm p).mpr (h.parent_mapped k p hk)
  · intro p n hn k
    rw [hget] at hn
    obtain ⟨m, hm', rfl⟩ := Option.map_eq_some_iff.mp hn
    rw [hu]
    exact h.children p m hm' k

end Rooted

/-- One contained step leaves a forest. -/
theorem Op.rooted {op : Op} (h : Rooted map anchor) (hi : op.Issued map) (hc : op.Contained map) :
    Rooted (op.apply map) anchor := by
  cases op with
  | learn dir name child =>
    show Rooted (map.learn_inner dir name child false) anchor
    apply h.learn_inner
    rintro c rfl
    exact hc
  | learn_moved_in dir name child =>
    show Rooted (map.learn_inner dir name (some child) true) anchor
    apply h.learn_inner
    intro c he
    exact Option.some.inj he ▸ hc
  | forget fid =>
    apply h.forget
    intro he
    exact absurd (h.is_root_iff.mpr he) (by simpa [Op.Contained] using hc)
  | admit_fid fid =>
    rw [Op.apply, h.admit_fid]
    exact h
  | seed entries =>
    obtain ⟨moved, hm, hw⟩ := hi
    exact h.seed (by simpa using hm) hw hc
  | clear_pending_walk fid => exact h.clear_pending_walk

theorem Run.rooted (h : Run map anchor) : Rooted map anchor := by
  induction h with
  | seed h => exact .listing rfl h
  | reseed _ hl => exact .listing rfl hl
  | step _ hi hc ih => exact Op.rooted ih hi hc

/-- Every map of a run whose steps hang no mapped directory below itself and never
    forget the anchor is a forest under the anchor.  Every mapped directory's path
    is found, admission evicts nothing, a move takes exactly its subtree along, a
    removal takes exactly a subtree, and an unknown parent teaches nothing. -/
theorem admission_forest (h : Run map anchor) :
    Rooted map anchor ∧ (∀ k, Mapped map k → Above map.up anchor k) ∧
      (∀ k, (map.resolve k).isSome ↔ Mapped map k) ∧ (∀ fid, (map.admit_fid fid).2 = map) ∧
      (∀ dir raw name fid walk, os_name raw = some name → Mapped map dir.handle →
        Mapped map fid.handle → Clear map dir.handle fid.handle →
          Moved map (map.learn_inner dir raw (some fid) walk) fid.handle dir.handle name) ∧
      (∀ fid, Pruned map (map.forget fid) fid.handle) ∧
      ∀ dir raw child walk, ¬ Mapped map dir.handle → map.learn_inner dir raw child walk = map := by
  have hr : Rooted map anchor := h.rooted
  refine ⟨hr, fun k => hr.above, fun k => hr.resolve_isSome, fun fid => hr.admit_fid, ?_,
    hr.pruned, ?_⟩
  · intro dir raw name fid walk hn hd hk hc
    have hcon : map.dirs.contains dir.handle = true := contains_iff.mpr hd
    simp only [FidMap.learn_inner, hcon, if_true, hn]
    exact hr.moved hd hk (hc hd hk)
  · intro dir raw child walk hd
    have hcon : ¬ map.dirs.contains dir.handle = true := fun hc => hd (contains_iff.mp hc)
    cases child with
    | none => rfl
    | some c => simp [FidMap.learn_inner, hcon]

/-! ### A tree of three directories -/

/-- The directory with a one-byte handle. -/
def single (b : UInt8) : Fid := { fsid := [0, 0, 0, 0, 0, 0, 0, 0], handle := [b] }

/-- `/r`, in it `a`, and `b` in that. -/
def nested : FidMap :=
  FidMap.new.seed
    [{ fid := single 1, parent := none, name := [0x2F, 0x72] },
      { fid := single 2, parent := some (single 1), name := [0x61] },
      { fid := single 3, parent := some (single 2), name := [0x62] }]

theorem run_nested : Run nested [1] :=
  .seed ⟨rfl, rfl, by decide, ⟨[1], by decide, rfl⟩, by decide, ⟨[2], by decide, rfl⟩, trivial⟩

/-- `b` moves up beside `a`. -/
theorem admission_forest_moved_up :
    Rooted (nested.learn (single 1) [0x63] (some (single 3))) [1] := by
  have hc : (Op.learn (single 1) [0x63] (some (single 3))).Contained nested := by
    intro _ _ _ ha
    exact absurd (run_nested.rooted.eq_anchor ha) (by decide)
  have hi : (Op.learn (single 1) [0x63] (some (single 3))).Issued nested := trivial
  exact (admission_forest (.step run_nested hi hc)).1

/-- Told that `a` now is in `b`, the map links each below the other, and neither
    has a path. -/
theorem learn_below_itself :
    Run nested [1] ∧ (∀ anchor, ¬ Rooted (nested.learn (single 3) [0x61] (some (single 2))) anchor) ∧
      (nested.learn (single 3) [0x61] (some (single 2))).resolve [2] = none := by
  have hr : (nested.learn (single 3) [0x61] (some (single 2))).resolve [2] = none := by
    decide +kernel
  have hm : (nested.learn (single 3) [0x61] (some (single 2))).contains (single 2) = true := by
    decide +kernel
  refine ⟨run_nested, ?_, hr⟩
  intro anchor h
  have hs : ((nested.learn (single 3) [0x61] (some (single 2))).resolve [2]).isSome = true :=
    h.resolve_isSome.mpr (contains_iff.mp hm)
  rw [hr] at hs
  cases hs

end Fanotify
