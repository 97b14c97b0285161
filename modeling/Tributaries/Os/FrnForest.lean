import Tributaries.Os.FrnMap

/-! # The directory map as a tree

  The map is a tree under its implicit root, whatever is seeded, learned,
  moved and forgotten: what would close a cycle is refused, and nothing else
  but what the map does not know or has no room for.
-/

open Collections Std Forest

namespace Usn

variable {map map' : FrnMap} {frn parent k p : Frn} {name : List Char}

/-- The directory has a node. -/
def Mapped (map : FrnMap) (k : Frn) : Prop := ∃ n, map.nodes[k]? = some n

/-- The directory is the root or has a node. -/
def Known (map : FrnMap) (k : Frn) : Prop := k = map.root ∨ Mapped map k

/-- A directory's parent link. -/
def FrnMap.up (map : FrnMap) (k : Frn) : Option Frn := (map.nodes[k]?).map FrnNode.parent

/-- The children set of a directory, empty where none is kept. -/
def kids (children : Map Frn (OSet Frn)) (p : Frn) : OSet Frn := (children[p]?).getD ∅

/-- Hung below `p`, the directory would have no way up to a root. -/
def Knots (map : FrnMap) (frn p : Frn) : Prop :=
  ¬ Grounded (Function.update map.up frn (some p)) frn

theorem mapped_iff : Mapped map k ↔ map.nodes.contains k = true := contains_iff.symm

theorem not_mapped_iff : ¬ Mapped map k ↔ map.nodes[k]? = none := by
  rw [mapped_iff, Bool.not_eq_true, contains_false_iff]

theorem known_iff : Known map k ↔ map.contains k = true := by
  simp [Known, FrnMap.contains, FrnMap.is_root, mapped_iff]

theorem up_eq_some : map.up k = some p ↔ ∃ n, map.nodes[k]? = some n ∧ n.parent = p :=
  Option.map_eq_some_iff

theorem up_eq_none : map.up k = none ↔ ¬ Mapped map k := by
  rw [not_mapped_iff, FrnMap.up, Option.map_eq_none_iff]

theorem mapped_of_up (h : map.up k = some p) : Mapped map k := by
  obtain ⟨n, hn, -⟩ := up_eq_some.mp h
  exact ⟨n, hn⟩

/-! ### Children sets -/

section Kids

variable {children : Map Frn (OSet Frn)} {nodes : Map Frn FrnNode} {q x cursor : Frn}

theorem mem_unlink : x ∈ kids (unlink children p frn) q ↔
    x ∈ kids children q ∧ ¬ (q = p ∧ x = frn) := by
  unfold kids unlink
  rw [get_modify]
  by_cases hq : p = q
  · subst hq
    cases hc : children[p]? with
    | none => simp
    | some s =>
      simp only [if_true, Option.map_some, Option.getD_some, mem_erase_iff, true_and]
      constructor
      · intro h
        exact ⟨h.2, fun e => h.1 e.symm⟩
      · intro h
        exact ⟨fun e => h.2 e.symm, h.1⟩
  · rw [if_neg hq]
    constructor
    · intro h
      exact ⟨h, fun e => hq e.1.symm⟩
    · exact And.left

theorem mem_link : x ∈ kids (link children p frn) q ↔
    x ∈ kids children q ∨ (q = p ∧ x = frn) := by
  have hget : children.getD p ∅ = kids children p := by
    rw [kids, ExtTreeMap.getD_eq_getD_getElem?]
  unfold link
  rw [hget, kids, get_insert]
  by_cases hq : p = q
  · subst hq
    rw [if_pos rfl, Option.getD_some, mem_insert_iff]
    constructor
    · intro h
      exact h.symm.imp_right fun e => ⟨rfl, e.symm⟩
    · intro h
      exact (h.imp_right fun e => e.2.symm).symm
  · rw [if_neg hq]
    constructor
    · exact Or.inl
    · intro h
      exact h.resolve_right fun e => hq e.1.symm

theorem mem_detach : x ∈ kids (detach nodes children cursor) q ↔
    x ∈ kids children q ∧ ¬ ((nodes[cursor]?).map FrnNode.parent = some q ∧ x = cursor) := by
  unfold detach
  cases hn : nodes[cursor]? with
  | none => simp
  | some n =>
    rw [mem_unlink]
    simp only [Option.map_some, Option.some.injEq, eq_comm (a := q)]

theorem mem_kids_erase : x ∈ kids (children.erase cursor) q ↔ q ≠ cursor ∧ x ∈ kids children q := by
  unfold kids
  rw [get_erase]
  by_cases hq : cursor = q
  · simp [hq]
  · rw [if_neg hq]
    constructor
    · intro h
      exact ⟨fun e => hq e.symm, h⟩
    · exact And.right

/-- The children set that is taken out with its owner is the one that was kept. -/
theorem kids_of_get {s : OSet Frn} (h : children[cursor]? = some s) : kids children cursor = s := by
  rw [kids, h]
  rfl

theorem kids_of_none (h : children[cursor]? = none) : x ∉ kids children cursor := by
  rw [kids, h]
  simp

end Kids

/-! ### The tree under the root -/

structure Rooted (map : FrnMap) : Prop where
  implicit : ¬ Mapped map map.root
  parent_known : ∀ k p, map.up k = some p → Known map p
  /-- The children sets are the inverse of the parent links. -/
  children : ∀ p k, k ∈ kids map.children p ↔ map.up k = some p
  grounded : ∀ k, Grounded map.up k
  capped : ∀ cap, map.max_directories = some cap → map.nodes.size ≤ cap

namespace Rooted

theorem up_root (h : Rooted map) : map.up map.root = none := up_eq_none.mpr h.implicit

theorem mapped_ne_root (h : Rooted map) (hk : Mapped map k) : k ≠ map.root := by
  intro he
  exact h.implicit (he ▸ hk)

/-- The chain of a known directory is mapped up to the root. -/
theorem chain_split {l : List Frn} (h : Rooted map) (hk : Known map k)
    (hl : Chain map.up k l) : ∃ m, l = m ++ [map.root] ∧ ∀ x ∈ m, Mapped map x := by
  induction hl with
  | root hn =>
    have hr : _ = map.root := hk.resolve_right (up_eq_none.mp hn)
    exact ⟨[], by rw [hr]; rfl, by simp⟩
  | step hs _ ih =>
    obtain ⟨m, hm, hmapped⟩ := ih (h.parent_known _ _ hs)
    refine ⟨_ :: m, by rw [hm]; rfl, ?_⟩
    intro x hx
    rcases List.mem_cons.mp hx with rfl | hx
    · exact mapped_of_up hs
    · exact hmapped x hx

/-- Every chain of parents reaches the root. -/
theorem above (h : Rooted map) (hk : Known map k) : Above map.up map.root k := by
  obtain ⟨l, hl⟩ := (h.grounded k).chain
  obtain ⟨m, hm, -⟩ := h.chain_split hk hl
  exact ⟨l, hl, by simp [hm]⟩

/-- What is above a known directory is known. -/
theorem known_above (h : Rooted map) (hk : Known map k) (ha : Above map.up p k) :
    Known map p := by
  obtain ⟨l, hl, hp⟩ := ha
  obtain ⟨m, rfl, hm⟩ := h.chain_split hk hl
  rcases List.mem_append.mp hp with hp | hp
  · exact .inr (hm p hp)
  · exact .inl (List.mem_singleton.mp hp)

/-- A chain is no longer than the map, its root apart. -/
theorem chain_length {m : List Frn} (hl : Chain map.up k (m ++ [map.root]))
    (hm : ∀ x ∈ m, Mapped map x) : m.length ≤ map.nodes.size := by
  have hn : m.Nodup := (List.nodup_append.mp hl.nodup).1
  apply length_le_size hn
  intro x hx
  exact mapped_iff.mp (hm x hx)

end Rooted

/-! ### The bounded walks -/

theorem chain_cons {up : Frn → Option Frn} {x : Frn} {l : List Frn} (h : Chain up k (x :: l))
    (hne : l ≠ []) : x = k ∧ ∃ p, up k = some p ∧ Chain up p l := by
  cases h with
  | root => exact absurd rfl hne
  | step hs hp => exact ⟨rfl, _, hs, hp⟩

theorem chain_singleton {up : Frn → Option Frn} {x : Frn} (h : Chain up k [x]) : x = k := by
  cases h with
  | root => rfl
  | step _ hp => exact absurd rfl hp.ne_nil

def FrnMap.name_of (map : FrnMap) (k : Frn) : List Char :=
  ((map.nodes[k]?).map FrnNode.name).getD []

/-- Enough turns spell out the whole chain. -/
theorem resolve_from_chain {m : List Frn} {turns : Nat} {components : List (List Char)}
    (hl : Chain map.up k (m ++ [map.root])) (hm : ∀ x ∈ m, Mapped map x) (hne : m ≠ [])
    (hr : ¬ Mapped map map.root) (ht : m.length ≤ turns) :
    map.resolve_from turns components k = some ((m.map map.name_of).reverse ++ components) := by
  induction m generalizing k turns components with
  | nil => exact absurd rfl hne
  | cons x m ih =>
    obtain ⟨rfl, p, hs, htail⟩ := chain_cons hl (by simp)
    obtain ⟨n, hn, rfl⟩ := up_eq_some.mp hs
    have hname : map.name_of x = n.name := by
      rw [FrnMap.name_of, hn]
      rfl
    cases turns with
    | zero => exact absurd ht (by simp)
    | succ turns =>
      unfold FrnMap.resolve_from
      simp only [hn]
      by_cases hroot : n.parent = map.root
      · have hnil : m = [] := by
          have htop : Chain map.up map.root [map.root] := .root (up_eq_none.mpr hr)
          have hu := (hroot ▸ htail).unique htop
          simpa using congrArg List.length hu
        rw [if_pos hroot, hnil, List.map_cons, hname]
        rfl
      · have hm' : m ≠ [] := by
          intro hnil
          subst hnil
          exact hroot (chain_singleton htail).symm
        rw [if_neg hroot, ih htail (fun y hy => hm y (by simp [hy])) hm'
          (by simpa using ht), List.map_cons, List.reverse_cons, hname, List.append_assoc]
        rfl

/-- Enough turns find what is above a directory. -/
theorem descends_within_chain {m : List Frn} {turns : Nat}
    (hl : Chain map.up k (m ++ [map.root])) (hr : ¬ Mapped map map.root)
    (ht : m.length < turns) :
    map.descends_within frn turns k = true ↔ frn ∈ m ++ [map.root] := by
  induction m generalizing k turns with
  | nil =>
    obtain rfl := chain_singleton hl
    cases turns with
    | zero => exact absurd ht (by simp)
    | succ turns =>
      unfold FrnMap.descends_within
      by_cases hf : map.root = frn
      · simp [hf]
      · simp [hf, eq_comm (a := frn)]
  | cons x m ih =>
    obtain ⟨rfl, p, hs, hp⟩ := chain_cons hl (by simp)
    obtain ⟨n, hn, rfl⟩ := up_eq_some.mp hs
    cases turns with
    | zero => exact absurd ht (by simp)
    | succ turns =>
      have hroot : x ≠ map.root := by
        intro he
        exact hr ⟨n, he ▸ hn⟩
      unfold FrnMap.descends_within
      by_cases hf : x = frn
      · simp [hf]
      · rw [if_neg hf, if_neg hroot, hn]
        dsimp only
        rw [ih hp (by simpa using ht), List.cons_append, List.mem_cons]
        constructor
        · exact Or.inr
        · intro h
          exact h.resolve_left fun e => hf e.symm

namespace Rooted

/-- The walk that the refusals are made on finds exactly what is above. -/
theorem descends_from_iff (h : Rooted map) (hp : Known map p) :
    map.descends_from p frn = true ↔ Above map.up frn p := by
  obtain ⟨l, hl⟩ := (h.grounded p).chain
  obtain ⟨m, rfl, hm⟩ := h.chain_split hp hl
  have hlen := chain_length hl hm
  rw [FrnMap.descends_from, descends_within_chain hl h.implicit (by omega), Above.iff_mem hl]

theorem resolve_dir_isSome (h : Rooted map) : (map.resolve_dir k).isSome = true ↔ Known map k := by
  unfold FrnMap.resolve_dir FrnMap.is_root
  by_cases hr : k = map.root
  · simp [hr, Known]
  · rw [if_neg (by simpa using hr)]
    by_cases hk : Mapped map k
    · obtain ⟨l, hl⟩ := (h.grounded k).chain
      obtain ⟨m, rfl, hm⟩ := h.chain_split (.inr hk) hl
      have hlen := chain_length hl hm
      have hne : m ≠ [] := by
        rintro rfl
        exact hr (chain_singleton hl).symm
      rw [resolve_from_chain hl hm hne h.implicit (by omega)]
      simp [Known, hk]
    · unfold FrnMap.resolve_from
      rw [not_mapped_iff.mp hk]
      simp [Known, hr, hk]

end Rooted

/-! ### Hanging a directory -/

section Cycles

variable {up : Frn → Option Frn} {x : Frn}

/-- What is above a directory stays so where another is hung elsewhere. -/
theorem above_update (h : Above up frn x) (hg : Grounded (Function.update up frn (some p)) x) :
    Above (Function.update up frn (some p)) frn x := by
  obtain ⟨l, hl, hm⟩ := h
  induction hl with
  | root => exact List.mem_singleton.mp hm ▸ .refl (List.mem_singleton.mp hm ▸ hg)
  | @step x q l hx hq ih =>
    by_cases hxf : x = frn
    · subst hxf
      exact .refl hg
    · have hfl : frn ∈ l := (List.mem_cons.mp hm).resolve_left fun e => hxf e.symm
      have hup : Function.update up frn (some p) x = some q := by
        rw [Function.update_of_ne hxf, hx]
      have hgq : Grounded (Function.update up frn (some p)) q := by
        cases hg with
        | root hn =>
          rw [hup] at hn
          cases hn
        | step hs hp =>
          rw [hup] at hs
          exact Option.some.inj hs ▸ hp
      exact .step hup (ih hgq hfl)

/-- A link closes a cycle exactly where it hangs a directory below itself. -/
theorem knots_iff (hg : ∀ k, Grounded map.up k) : Knots map frn p ↔ Above map.up frn p := by
  constructor
  · intro h
    by_contra ha
    apply h
    apply (hg frn).rekey (hg p) ha (c := frn) (Function.update_self ..)
    intro y hy
    exact Function.update_of_ne hy ..
  · intro ha hf
    have hup : Function.update map.up frn (some p) frn = some p := Function.update_self ..
    have hp : Grounded (Function.update map.up frn (some p)) p := by
      cases hf with
      | root hn =>
        rw [hup] at hn
        cases hn
      | step hs hp =>
        rw [hup] at hs
        exact Option.some.inj hs ▸ hp
    -- the chain of `p` would come by the directory that it hangs below
    obtain ⟨l, hl, hm⟩ := above_update ha hp
    exact (List.nodup_cons.mp (Chain.step hup hl).nodup).1 hm

end Cycles

/-- The map has no room for another directory. -/
def Full (map : FrnMap) : Prop := ∃ cap, map.max_directories = some cap ∧ cap ≤ map.nodes.size

theorem size_le {t t' : Map Frn FrnNode} (h : ∀ k : Frn, t'.contains k = true → t.contains k = true) :
    t'.size ≤ t.size := by
  rw [← ExtTreeMap.length_keys]
  apply length_le_size ExtTreeMap.nodup_keys
  intro k hk
  exact h k (ExtTreeMap.mem_keys.mp hk)

/-- What an accepted link changes. -/
structure Relinked (map map' : FrnMap) (frn p : Frn) (name : List Char) : Prop where
  root : map'.root = map.root
  max_directories : map'.max_directories = map.max_directories
  generation : map'.generation = map.generation + 1
  node : map'.nodes[frn]? = some { parent := p, name }
  others : ∀ k, k ≠ frn → map'.nodes[k]? = map.nodes[k]?
  children : ∀ q x, x ∈ kids map'.children q ↔
    (x ≠ frn ∧ x ∈ kids map.children q) ∨ (x = frn ∧ q = p)

namespace Relinked

theorem up (h : Relinked map map' frn p name) : map'.up = Function.update map.up frn (some p) := by
  funext k
  by_cases hk : k = frn
  · subst hk
    rw [Function.update_self, FrnMap.up, h.node]
    rfl
  · rw [Function.update_of_ne hk, FrnMap.up, h.others k hk, FrnMap.up]

theorem mapped (h : Relinked map map' frn p name) :
    Mapped map' k ↔ k = frn ∨ Mapped map k := by
  by_cases hk : k = frn
  · subst hk
    simp [Mapped, h.node]
  · simp [Mapped, h.others k hk, hk]

theorem known (h : Relinked map map' frn p name) : Known map' k ↔ k = frn ∨ Known map k := by
  unfold Known
  rw [h.root, h.mapped]
  constructor
  · rintro (hk | hk | hk)
    · exact .inr (.inl hk)
    · exact .inl hk
    · exact .inr (.inr hk)
  · rintro (hk | hk | hk)
    · exact .inr (.inl hk)
    · exact .inl hk
    · exact .inr (.inr hk)

/-- A link grows the map by the directory that it hangs, unless that is mapped. -/
theorem size_le (h : Relinked map map' frn p name) :
    map'.nodes.size ≤ map.nodes.size + 1 ∧
      (Mapped map frn → map'.nodes.size ≤ map.nodes.size) := by
  constructor
  · have hle : (map'.nodes.erase frn).size ≤ map.nodes.size := by
      apply Usn.size_le
      intro k hk
      rw [ExtTreeMap.contains_erase, Bool.and_eq_true] at hk
      have hk' : k ≠ frn := by
        rintro rfl
        simp at hk
      exact mapped_iff.mp ((h.mapped.mp (mapped_iff.mpr hk.2)).resolve_left hk')
    have hmem : map'.nodes.contains frn = true := mapped_iff.mp (h.mapped.mpr (.inl rfl))
    rw [ExtTreeMap.size_erase, if_pos hmem] at hle
    omega
  · intro hm
    apply Usn.size_le
    intro k hk
    rcases h.mapped.mp (mapped_iff.mpr hk) with rfl | hk
    · exact mapped_iff.mp hm
    · exact mapped_iff.mp hk

/-- A link that is no knot leaves a tree, as long as there is room. -/
theorem rooted (h : Relinked map map' frn p name) (hr : Rooted map) (hp : Known map p)
    (hf : frn ≠ map.root) (hc : ¬ Knots map frn p) (hroom : Mapped map frn ∨ ¬ Full map) :
    Rooted map' := by
  rw [knots_iff hr.grounded] at hc
  constructor
  · rw [h.root, h.mapped]
    intro hm
    exact hm.elim (fun e => hf e.symm) hr.implicit
  · intro k q hq
    rw [h.known]
    rw [h.up] at hq
    by_cases hk : k = frn
    · subst hk
      rw [Function.update_self] at hq
      exact .inr (Option.some.inj hq ▸ hp)
    · rw [Function.update_of_ne hk] at hq
      exact .inr (hr.parent_known k q hq)
  · intro q k
    rw [h.children, h.up, hr.children]
    by_cases hk : k = frn
    · subst hk
      simp [eq_comm]
    · simp [hk]
  · intro k
    apply (hr.grounded k).rekey (hr.grounded p) hc (c := frn)
    · rw [h.up, Function.update_self]
    · intro y hy
      rw [h.up, Function.update_of_ne hy]
  · intro cap hcap
    rw [h.max_directories] at hcap
    have hle := hr.capped cap hcap
    rcases hroom with hm | hn
    · exact (h.size_le.2 hm).trans hle
    · have hlt : map.nodes.size < cap := by
        by_contra hge
        exact hn ⟨cap, hcap, Nat.le_of_not_lt hge⟩
      have hgrow := h.size_le.1
      omega

end Relinked

/-- The children sets of a link that was hung elsewhere before. -/
theorem mem_relink {children : Map Frn (OSet Frn)} {q x old : Frn}
    (ho : ∀ r, frn ∈ kids children r ↔ r = old) :
    x ∈ kids (link (unlink children old frn) p frn) q ↔
      (x ≠ frn ∧ x ∈ kids children q) ∨ (x = frn ∧ q = p) := by
  rw [mem_link, mem_unlink]
  by_cases hx : x = frn
  · subst hx
    rw [ho]
    simp
  · simp [hx]

namespace Rooted

/-- The parent of a mapped directory is the only one that keeps it as a child. -/
theorem sole_parent {n : FrnNode} (h : Rooted map) (hn : map.nodes[frn]? = some n) (r : Frn) :
    frn ∈ kids map.children r ↔ r = n.parent := by
  rw [h.children, FrnMap.up, hn]
  simp [eq_comm]

/-- What `learn` answers, case by case. -/
theorem learn_cases (h : Rooted map) (parent : Frn) (name : List Char) (hf : frn ≠ map.root) :
    (¬ Known map parent ∧ map.learn frn parent name = (.outside_root, map)) ∨
    (Known map parent ∧ Knots map frn parent ∧
      map.learn frn parent name = (.inconsistent, map)) ∨
    (Known map parent ∧ ¬ Knots map frn parent ∧ ¬ Mapped map frn ∧ Full map ∧
      map.learn frn parent name = (.over_capacity, map)) ∨
    (Known map parent ∧ ¬ Knots map frn parent ∧ (Mapped map frn ∨ ¬ Full map) ∧
      ∃ map', map.learn frn parent name = (.learned, map') ∧
        Relinked map map' frn parent name) := by
  by_cases hp : Known map parent
  swap
  · left
    refine ⟨hp, ?_⟩
    unfold FrnMap.learn
    rw [if_pos]
    simpa [known_iff] using hp
  have hp' : ¬ (!map.contains parent) = true := by simpa [known_iff] using hp
  by_cases hk : Knots map frn parent
  · right
    left
    have ha := (knots_iff h.grounded).mp hk
    have hm : Mapped map frn := (h.known_above hp ha).resolve_left hf
    refine ⟨hp, hk, ?_⟩
    unfold FrnMap.learn
    rw [if_neg hp', if_pos]
    rw [Bool.and_eq_true, h.descends_from_iff hp]
    exact ⟨mapped_iff.mp hm, ha⟩
  have hd : ¬ (map.nodes.contains frn && map.descends_from parent frn) = true := by
    rw [Bool.and_eq_true, h.descends_from_iff hp, ← knots_iff h.grounded]
    exact fun e => hk e.2
  by_cases hroom : Mapped map frn ∨ ¬ Full map
  · right
    right
    right
    have hcap : ¬ (map.max_directories.any fun cap =>
        cap ≤ map.nodes.size && !map.nodes.contains frn) = true := by
      intro hcap
      rw [Option.any_eq_true] at hcap
      obtain ⟨cap, hc, hfull⟩ := hcap
      simp only [Bool.and_eq_true, decide_eq_true_eq, Bool.not_eq_true', ← Bool.not_eq_true,
        ← mapped_iff] at hfull
      exact hroom.elim hfull.2 fun hn => hn ⟨cap, hc, hfull.1⟩
    refine ⟨hp, hk, hroom, ?_⟩
    unfold FrnMap.learn
    rw [if_neg hp', if_neg hd, if_neg hcap]
    refine ⟨_, rfl, rfl, rfl, rfl, by rw [get_insert, if_pos rfl], ?_, ?_⟩
    · intro k hk'
      rw [get_insert, if_neg fun e => hk' e.symm]
    · intro q x
      dsimp only
      cases hn : map.nodes[frn]? with
      | some n => exact mem_relink (h.sole_parent hn)
      | none =>
        have hno : ∀ r, frn ∉ kids map.children r := by
          intro r hr
          exact not_mapped_iff.mpr hn (mapped_of_up ((h.children r frn).mp hr))
        dsimp only
        rw [mem_link]
        by_cases hx : x = frn
        · subst hx
          simp [hno]
        · simp [hx]
  · right
    right
    left
    obtain ⟨hm, hfull⟩ := not_or.mp hroom
    obtain ⟨cap, hc, hle⟩ := not_not.mp hfull
    refine ⟨hp, hk, hm, ⟨cap, hc, hle⟩, ?_⟩
    unfold FrnMap.learn
    rw [if_neg hp', if_neg hd, if_pos]
    rw [hc, Option.any_some, Bool.and_eq_true, Bool.not_eq_true', ← Bool.not_eq_true, ← mapped_iff]
    exact ⟨by simpa using hle, hm⟩

/-- What `reparent` answers, case by case. -/
theorem reparent_cases (h : Rooted map) (frn parent : Frn) (name : List Char) :
    ((¬ Mapped map frn ∨ ¬ Known map parent ∨ Knots map frn parent) ∧
      map.reparent frn parent name = (false, map)) ∨
    (Mapped map frn ∧ Known map parent ∧ ¬ Knots map frn parent ∧
      ∃ map', map.reparent frn parent name = (true, map') ∧
        Relinked map map' frn parent name) := by
  unfold FrnMap.reparent
  cases hn : map.nodes[frn]? with
  | none => exact .inl ⟨.inl (not_mapped_iff.mpr hn), rfl⟩
  | some n =>
    dsimp only
    by_cases hp : Known map parent
    swap
    · refine .inl ⟨.inr (.inl hp), ?_⟩
      rw [if_pos]
      simpa [known_iff] using hp
    rw [if_neg (by simpa [known_iff] using hp)]
    by_cases hk : Knots map frn parent
    · refine .inl ⟨.inr (.inr hk), ?_⟩
      rw [if_pos ((h.descends_from_iff hp).mpr ((knots_iff h.grounded).mp hk))]
    · rw [if_neg fun hd => hk ((knots_iff h.grounded).mpr ((h.descends_from_iff hp).mp hd))]
      refine .inr ⟨⟨n, hn⟩, hp, hk, _, rfl, rfl, rfl, rfl, ?_, ?_, ?_⟩
      · rw [get_modify, if_pos rfl, hn]
        rfl
      · intro k hk'
        rw [get_modify, if_neg fun e => hk' e.symm]
      · intro q x
        exact mem_relink (h.sole_parent hn)

end Rooted

/-! ### Forgetting a directory -/

section Forget

variable {nodes nodes' : Map Frn FrnNode} {children children' c : Map Frn (OSet Frn)}
  {D : Frn → Prop} {cursor : Frn} {stack : List Frn}

/-- The directories in `D` are taken out, and nothing else. -/
structure Taken (nodes : Map Frn FrnNode) (children : Map Frn (OSet Frn)) (D : Frn → Prop)
    (nodes' : Map Frn FrnNode) (children' : Map Frn (OSet Frn)) : Prop where
  gone : ∀ k, D k → nodes'[k]? = none
  kept : ∀ k, ¬ D k → nodes'[k]? = nodes[k]?
  children : ∀ q x, x ∈ kids children' q ↔ ¬ D q ∧ ¬ D x ∧ x ∈ kids children q

/-- One turn takes the directory at the top of the stack. -/
theorem Taken.take (h : Taken nodes children D nodes' children')
    (hinv : ∀ q x, x ∈ kids children q → (nodes[x]?).map FrnNode.parent = some q)
    (hc : ∀ q x, x ∈ kids c q ↔ q ≠ cursor ∧ x ∈ kids children' q) :
    Taken nodes children (fun k => D k ∨ k = cursor) (nodes'.erase cursor)
      (detach nodes' c cursor) := by
  constructor
  · intro k hk
    rw [get_erase]
    by_cases he : cursor = k
    · rw [if_pos he]
    · rw [if_neg he]
      exact h.gone k (hk.resolve_right fun e => he e.symm)
  · intro k hk
    obtain ⟨hd, he⟩ := not_or.mp hk
    rw [get_erase, if_neg fun e => he e.symm]
    exact h.kept k hd
  · intro q x
    rw [mem_detach, hc, h.children]
    constructor
    · intro ⟨⟨hq, hdq, hdx, hx⟩, hne⟩
      refine ⟨not_or.mpr ⟨hdq, hq⟩, not_or.mpr ⟨hdx, ?_⟩, hx⟩
      rintro rfl
      -- its parent's set is the one it was taken out of
      apply hne
      exact ⟨by rw [h.kept _ hdx, hinv q _ hx], rfl⟩
    · intro ⟨hq, hx, hm⟩
      obtain ⟨hdq, hq⟩ := not_or.mp hq
      obtain ⟨hdx, hx⟩ := not_or.mp hx
      exact ⟨⟨hq, hdq, hdx, hm⟩, fun e => hx e.2⟩

theorem forget_from_nil : forget_from nodes children [] = (nodes, children) := by
  rw [forget_from]

theorem forget_from_none (h : children[cursor]? = none) :
    forget_from nodes children (cursor :: stack) =
      forget_from (nodes.erase cursor) (detach nodes children cursor) stack := by
  rw [forget_from]
  split
  · rfl
  · next heq => simp [h] at heq

theorem forget_from_some {below : OSet Frn} (h : children[cursor]? = some below) :
    forget_from nodes children (cursor :: stack) =
      forget_from (nodes.erase cursor) (detach nodes (children.erase cursor) cursor)
        (below.toList.reverse ++ stack) := by
  rw [forget_from]
  split
  · next heq => simp [h] at heq
  · next s heq =>
    obtain rfl := Option.some.inj (h.symm.trans heq)
    rfl

/-- The least set of directories that has the starting ones and their children. -/
structure Closed (children : Map Frn (OSet Frn)) (start D : Frn → Prop) : Prop where
  from_start : ∀ k, start k → D k
  child : ∀ k x, D k → x ∈ kids children k → D x
  least : ∀ P : Frn → Prop, (∀ k, start k → P k) →
    (∀ k x, P k → x ∈ kids children k → P x) → ∀ k, D k → P k

/-- Every child of a directory that is taken is taken or on the stack. -/
def Pending (children : Map Frn (OSet Frn)) (D : Frn → Prop) (stack : List Frn) : Prop :=
  ∀ k x, D k → x ∈ kids children k → D x ∨ x ∈ stack

section Turn

variable {stack' : List Frn}

theorem Pending.turn (hd : Pending children D (cursor :: stack))
    (h : Taken nodes children D nodes' children')
    (hs : ∀ x, x ∈ stack' ↔ x ∈ kids children' cursor ∨ x ∈ stack) :
    Pending children (fun k => D k ∨ k = cursor) stack' := by
  intro k x hk hx
  have hrest : D k → (D x ∨ x = cursor) ∨ x ∈ stack' := by
    intro hk
    rcases hd k x hk hx with hx | hx
    · exact .inl (.inl hx)
    · rcases List.mem_cons.mp hx with rfl | hx
      · exact .inl (.inr rfl)
      · exact .inr ((hs x).mpr (.inr hx))
  rcases hk with hk | rfl
  · exact hrest hk
  · -- a directory taken now still has those of its children that were not taken
    by_cases hk : D k
    · exact hrest hk
    by_cases hdx : D x
    · exact .inl (.inl hdx)
    · exact .inr ((hs x).mpr (.inl ((h.children k x).mpr ⟨hk, hdx, hx⟩)))

theorem Closed.turn {D' : Frn → Prop}
    (hc : Closed children (fun k => (D k ∨ k = cursor) ∨ k ∈ stack') D')
    (h : Taken nodes children D nodes' children')
    (hs : ∀ x, x ∈ stack' ↔ x ∈ kids children' cursor ∨ x ∈ stack) :
    Closed children (fun k => D k ∨ k ∈ cursor :: stack) D' := by
  constructor
  · intro k hk
    apply hc.from_start
    rcases hk with hk | hk
    · exact .inl (.inl hk)
    · rcases List.mem_cons.mp hk with rfl | hk
      · exact .inl (.inr rfl)
      · exact .inr ((hs k).mpr (.inr hk))
  · exact hc.child
  · intro P hP hchild
    apply hc.least P _ hchild
    intro k hk
    rcases hk with (hk | rfl) | hk
    · exact hP k (.inl hk)
    · exact hP k (.inr (by simp))
    · rcases (hs k).mp hk with hk | hk
      · exact hchild cursor k (hP cursor (.inr (by simp))) ((h.children cursor k).mp hk).2.2
      · exact hP k (.inr (by simp [hk]))

end Turn

/-- The loop takes the directories on its stack and all below them. -/
theorem forget_from_spec
    (hinv : ∀ q x, x ∈ kids children q → (nodes[x]?).map FrnNode.parent = some q)
    (h : Taken nodes children D nodes' children') (hd : Pending children D stack) :
    ∃ D', Closed children (fun k => D k ∨ k ∈ stack) D' ∧
      Taken nodes children D' (forget_from nodes' children' stack).1
        (forget_from nodes' children' stack).2 := by
  induction nodes', children', stack using forget_from.induct generalizing D with
  | case1 nodes' children' =>
    refine ⟨D, ⟨?_, ?_, ?_⟩, by rwa [forget_from_nil]⟩
    · intro k hk
      simpa using hk
    · intro k x hk hx
      simpa using hd k x hk hx
    · intro P hs _ k hk
      exact hs k (.inl hk)
  | case2 nodes' children' cursor stack hn ih =>
    have hs : ∀ x, x ∈ stack ↔ x ∈ kids children' cursor ∨ x ∈ stack := by
      intro x
      exact ⟨Or.inr, fun hx => hx.resolve_left (kids_of_none hn)⟩
    have hc : ∀ q x, x ∈ kids children' q ↔ q ≠ cursor ∧ x ∈ kids children' q := by
      intro q x
      refine ⟨fun hx => ⟨?_, hx⟩, And.right⟩
      rintro rfl
      exact kids_of_none hn hx
    obtain ⟨D', hcl, htk⟩ := ih (h.take hinv hc) (hd.turn h hs)
    rw [forget_from_none hn]
    exact ⟨D', hcl.turn h hs, htk⟩
  | case3 nodes' children' cursor stack below hn ih =>
    have hs : ∀ x, x ∈ below.toList.reverse ++ stack ↔
        x ∈ kids children' cursor ∨ x ∈ stack := by
      intro x
      rw [kids_of_get hn]
      simp
    have hc : ∀ q x, x ∈ kids (children'.erase cursor) q ↔
        q ≠ cursor ∧ x ∈ kids children' q := fun q x => mem_kids_erase
    obtain ⟨D', hcl, htk⟩ := ih (h.take hinv hc) (hd.turn h hs)
    rw [forget_from_some hn]
    exact ⟨D', hcl.turn h hs, htk⟩

end Forget

/-- What forgetting a mapped directory changes. -/
structure Forgotten (map map' : FrnMap) (frn : Frn) : Prop where
  root : map'.root = map.root
  max_directories : map'.max_directories = map.max_directories
  generation : map'.generation = map.generation + 1
  gone : ∀ k, Above map.up frn k → map'.nodes[k]? = none
  kept : ∀ k, ¬ Above map.up frn k → map'.nodes[k]? = map.nodes[k]?
  children : ∀ q x, x ∈ kids map'.children q ↔
    ¬ Above map.up frn q ∧ ¬ Above map.up frn x ∧ x ∈ kids map.children q

namespace Rooted

theorem forget_absent (hm : ¬ Mapped map frn) : map.forget frn = map := by
  unfold FrnMap.forget
  rw [if_neg]
  rwa [← mapped_iff]

/-- The children sets lead from a directory to exactly what is below it. -/
theorem closed_iff {D : Frn → Prop} (h : Rooted map)
    (hc : Closed map.children (fun k => False ∨ k ∈ [frn]) D) : D k ↔ Above map.up frn k := by
  constructor
  · intro hk
    refine hc.least (Above map.up frn) ?_ ?_ k hk
    · intro x hx
      obtain rfl : x = frn := by simpa using hx
      exact .refl (h.grounded x)
    · intro q x hq hx
      exact .step ((h.children q x).mp hx) hq
  · intro ⟨l, hl, hm⟩
    induction hl with
    | root => exact hc.from_start _ (.inr (by simpa [eq_comm] using hm))
    | @step x q l hx hq ih =>
      by_cases hxf : x = frn
      · exact hc.from_start x (.inr (by simp [hxf]))
      · have hfl : frn ∈ l := (List.mem_cons.mp hm).resolve_left fun e => hxf e.symm
        exact hc.child q x (ih hfl) ((h.children q x).mpr hx)

theorem forget_mapped (h : Rooted map) (hm : Mapped map frn) :
    Forgotten map (map.forget frn) frn := by
  have hinv : ∀ q x, x ∈ kids map.children q →
      (map.nodes[x]?).map FrnNode.parent = some q := fun q x => (h.children q x).mp
  have hnone : Taken map.nodes map.children (fun _ => False) map.nodes map.children :=
    ⟨nofun, fun _ _ => rfl, by simp⟩
  have hpending : Pending map.children (fun _ => False) [frn] := nofun
  obtain ⟨D, hc, ht⟩ := forget_from_spec hinv hnone hpending
  have hD : ∀ k, D k ↔ Above map.up frn k := fun k => h.closed_iff hc
  unfold FrnMap.forget
  rw [if_pos (mapped_iff.mp hm)]
  refine ⟨rfl, rfl, rfl, ?_, ?_, ?_⟩
  · intro k hk
    exact ht.gone k ((hD k).mpr hk)
  · intro k hk
    exact ht.kept k (mt (hD k).mp hk)
  · intro q x
    simp only [← hD]
    exact ht.children q x

end Rooted

namespace Forgotten

theorem mapped (h : Forgotten map map' frn) :
    Mapped map' k ↔ Mapped map k ∧ ¬ Above map.up frn k := by
  by_cases ha : Above map.up frn k
  · simp [Mapped, h.gone k ha, ha]
  · simp [Mapped, h.kept k ha, ha]

theorem up_of_not_above (h : Forgotten map map' frn) (ha : ¬ Above map.up frn k) :
    map'.up k = map.up k := by
  rw [FrnMap.up, h.kept k ha, FrnMap.up]

theorem up_of_above (h : Forgotten map map' frn) (ha : Above map.up frn k) :
    map'.up k = none := by
  rw [FrnMap.up, h.gone k ha]
  rfl

/-- Without a directory and what is below it, the rest is a tree. -/
theorem rooted (h : Forgotten map map' frn) (hr : Rooted map) : Rooted map' := by
  constructor
  · rw [h.root, h.mapped]
    exact fun hm => hr.implicit hm.1
  · intro k q hq
    obtain ⟨-, ha⟩ := h.mapped.mp (mapped_of_up hq)
    rw [h.up_of_not_above ha] at hq
    rcases hr.parent_known k q hq with hk | hk
    · exact .inl (hk.trans h.root.symm)
    · exact .inr (h.mapped.mpr ⟨hk, fun hb => ha (.step hq hb)⟩)
  · intro q k
    rw [h.children, hr.children]
    by_cases ha : Above map.up frn k
    · simp [h.up_of_above ha, ha]
    · rw [h.up_of_not_above ha]
      constructor
      · exact fun hk => hk.2.2
      · exact fun hk => ⟨fun hb => ha (.step hk hb), ha, hk⟩
  · intro k
    apply (hr.grounded k).prune
    intro y
    by_cases ha : Above map.up frn y
    · exact .inr (h.up_of_above ha)
    · exact .inl (h.up_of_not_above ha)
  · intro cap hcap
    rw [h.max_directories] at hcap
    apply Nat.le_trans (size_le _) (hr.capped cap hcap)
    intro k hk
    exact mapped_iff.mp (h.mapped.mp (mapped_iff.mpr hk)).1

end Forgotten

/-! ### Runs -/

inductive Op where
  | seed (entries : List (Frn × Frn × List Char))
  | learn (frn parent : Frn) (name : List Char)
  | forget (frn : Frn)
  | reparent (frn new_parent : Frn) (new_name : List Char)
  | clear

namespace Op

def apply (map : FrnMap) : Op → FrnMap
  | seed entries => map.seed entries
  | learn frn parent name => (map.learn frn parent name).2
  | forget frn => map.forget frn
  | reparent frn new_parent new_name => (map.reparent frn new_parent new_name).2
  | clear => map.clear

/-- The directories a call is about. -/
def subjects : Op → List Frn
  | seed entries => entries.map Prod.fst
  | learn frn _ _ | forget frn | reparent frn _ _ => [frn]
  | clear => []

/-- How many changes a call may make. -/
def changes : Op → Nat
  | seed entries => entries.length
  | _ => 1

end Op

/-- The maps of the runs of calls that are not about the root. -/
inductive Run (root : Frn) (max_directories : Option Nat) : FrnMap → Prop where
  | new : Run root max_directories (FrnMap.new root max_directories)
  | step {map : FrnMap} {op : Op} (h : Run root max_directories map)
    (hs : root ∉ op.subjects) : Run root max_directories (op.apply map)

/-- A tree with the root and the room of another, `n` changes on; the counter wraps. -/
structure Advanced (map map' : FrnMap) (n : Nat) : Prop where
  rooted : Rooted map'
  root : map'.root = map.root
  max_directories : map'.max_directories = map.max_directories
  generation : map'.generation.toNat = (map.generation.toNat + n) % 2 ^ 64
  unchanged : n = 0 → map' = map

namespace Advanced

theorem refl (h : Rooted map) : Advanced map map 0 :=
  ⟨h, rfl, rfl, (Nat.mod_eq_of_lt map.generation.toNat_lt).symm, fun _ => rfl⟩

theorem trans {map'' : FrnMap} {n m : Nat} (h : Advanced map map' n)
    (h' : Advanced map' map'' m) : Advanced map map'' (n + m) := by
  constructor
  · exact h'.rooted
  · exact h'.root.trans h.root
  · exact h'.max_directories.trans h.max_directories
  · rw [h'.generation, h.generation]
    omega
  · intro hn
    rw [h'.unchanged (by omega), h.unchanged (by omega)]

theorem one (hr : Rooted map') (hroot : map'.root = map.root)
    (hm : map'.max_directories = map.max_directories)
    (hg : map'.generation = map.generation + 1) : Advanced map map' 1 := by
  refine ⟨hr, hroot, hm, ?_, nofun⟩
  rw [hg, UInt64.toNat_add]
  rfl

end Advanced

namespace Rooted

theorem new (root : Frn) (max_directories : Option Nat) :
    Rooted (FrnMap.new root max_directories) := by
  have hup : ∀ k, (FrnMap.new root max_directories).up k = none := by
    intro k
    simp [FrnMap.up, FrnMap.new]
  refine ⟨?_, ?_, ?_, fun k => .root (hup k), ?_⟩
  · simp [Mapped, FrnMap.new]
  · intro k p h
    rw [hup] at h
    cases h
  · intro p k
    rw [hup]
    simp [kids, FrnMap.new]
  · simp [FrnMap.new]

theorem clear (map : FrnMap) : Advanced map map.clear 1 := by
  have hr := new map.root map.max_directories
  exact .one ⟨hr.implicit, hr.parent_known, hr.children, hr.grounded, hr.capped⟩ rfl rfl rfl

theorem learn (h : Rooted map) (parent : Frn) (name : List Char) (hf : frn ≠ map.root) :
    ∃ n ≤ 1, Advanced map (map.learn frn parent name).2 n := by
  rcases h.learn_cases parent name hf with
    ⟨-, he⟩ | ⟨-, -, he⟩ | ⟨-, -, -, -, he⟩ | ⟨hp, hk, hroom, map', he, hl⟩
  · exact ⟨0, by omega, he ▸ .refl h⟩
  · exact ⟨0, by omega, he ▸ .refl h⟩
  · exact ⟨0, by omega, he ▸ .refl h⟩
  · rw [he]
    exact ⟨1, Nat.le_refl _, .one (hl.rooted h hp hf hk hroom) hl.root hl.max_directories
      hl.generation⟩

theorem reparent (h : Rooted map) : ∃ n ≤ 1, Advanced map (map.reparent frn parent name).2 n := by
  rcases h.reparent_cases frn parent name with
    ⟨-, he⟩ | ⟨hm, hp, hk, map', he, hl⟩
  · exact ⟨0, by omega, he ▸ .refl h⟩
  · rw [he]
    exact ⟨1, Nat.le_refl _, .one (hl.rooted h hp (h.mapped_ne_root hm) hk (.inl hm)) hl.root
      hl.max_directories hl.generation⟩

theorem forget (h : Rooted map) : ∃ n ≤ 1, Advanced map (map.forget frn) n := by
  by_cases hm : Mapped map frn
  · have hf := h.forget_mapped hm
    exact ⟨1, Nat.le_refl _, .one (hf.rooted h) hf.root hf.max_directories hf.generation⟩
  · rw [forget_absent hm]
    exact ⟨0, by omega, .refl h⟩

theorem seed {entries : List (Frn × Frn × List Char)} (h : Rooted map)
    (hs : map.root ∉ entries.map Prod.fst) :
    ∃ n ≤ entries.length, Advanced map (map.seed entries) n := by
  induction entries generalizing map with
  | nil => exact ⟨0, Nat.le_refl _, .refl h⟩
  | cons entry entries ih =>
    rw [List.map_cons, List.mem_cons, not_or] at hs
    obtain ⟨n, hn, hl⟩ := h.learn entry.2.1 entry.2.2 (Ne.symm hs.1)
    obtain ⟨m, hm, ha⟩ := ih hl.rooted (by rw [hl.root]; exact hs.2)
    refine ⟨n + m, ?_, hl.trans ha⟩
    rw [List.length_cons]
    omega

end Rooted

/-- One call leaves a tree. -/
theorem Op.advanced {op : Op} (h : Rooted map) (hs : map.root ∉ op.subjects) :
    ∃ n ≤ op.changes, Advanced map (op.apply map) n := by
  cases op with
  | seed entries => exact h.seed hs
  | learn frn parent name =>
    apply h.learn parent name
    intro he
    exact hs (by simp [Op.subjects, he])
  | forget frn => exact h.forget
  | reparent frn parent name => exact h.reparent
  | clear => exact ⟨1, Nat.le_refl _, Rooted.clear map⟩

theorem Run.rooted {root : Frn} {max_directories : Option Nat} (h : Run root max_directories map) :
    Rooted map ∧ map.root = root ∧ map.max_directories = max_directories := by
  induction h with
  | new => exact ⟨.new .., rfl, rfl⟩
  | step _ hs ih =>
    obtain ⟨hr, hroot, hcap⟩ := ih
    obtain ⟨n, -, ha⟩ := Op.advanced hr (by rwa [hroot])
    exact ⟨ha.rooted, ha.root.trans hroot, ha.max_directories.trans hcap⟩

/-! ### What the calls answer -/

/-- What a link is refused for, what an accepted one changes, and that a refused one
    changes nothing. -/
structure Linking (map : FrnMap) (frn parent : Frn) (name : List Char) : Prop where
  outside_root : (map.learn frn parent name).1 = .outside_root ↔ ¬ Known map parent
  inconsistent : (map.learn frn parent name).1 = .inconsistent ↔
    Known map parent ∧ Knots map frn parent
  over_capacity : (map.learn frn parent name).1 = .over_capacity ↔
    Known map parent ∧ ¬ Knots map frn parent ∧ ¬ Mapped map frn ∧ Full map
  learned : (map.learn frn parent name).1 = .learned →
    Relinked map (map.learn frn parent name).2 frn parent name
  refused : (map.learn frn parent name).1 ≠ .learned → (map.learn frn parent name).2 = map
  stayed : (map.reparent frn parent name).1 = false ↔
    ¬ Mapped map frn ∨ ¬ Known map parent ∨ Knots map frn parent
  moved : (map.reparent frn parent name).1 = true →
    Relinked map (map.reparent frn parent name).2 frn parent name
  unmoved : (map.reparent frn parent name).1 = false → (map.reparent frn parent name).2 = map
  asked : Known map parent → (map.knots frn parent = true ↔ Knots map frn parent)

theorem Rooted.linking (h : Rooted map) (hf : frn ≠ map.root) : Linking map frn parent name := by
  have hasked : Known map parent → (map.knots frn parent = true ↔ Knots map frn parent) := by
    intro hp
    rw [FrnMap.knots, Bool.and_eq_true, h.descends_from_iff hp, knots_iff h.grounded,
      ← mapped_iff]
    exact ⟨And.right, fun ha => ⟨(h.known_above hp ha).resolve_left hf, ha⟩⟩
  have hstay : ((map.reparent frn parent name).1 = false ↔
        ¬ Mapped map frn ∨ ¬ Known map parent ∨ Knots map frn parent) ∧
      ((map.reparent frn parent name).1 = true →
        Relinked map (map.reparent frn parent name).2 frn parent name) ∧
      ((map.reparent frn parent name).1 = false → (map.reparent frn parent name).2 = map) := by
    rcases h.reparent_cases frn parent name with
      ⟨hno, he⟩ | ⟨hm, hp, hk, map', he, hl⟩
    · rw [he]
      exact ⟨⟨fun _ => hno, fun _ => rfl⟩, nofun, fun _ => rfl⟩
    · rw [he]
      refine ⟨⟨nofun, fun hno => ?_⟩, fun _ => hl, nofun⟩
      rcases hno with hno | hno | hno
      · exact absurd hm hno
      · exact absurd hp hno
      · exact absurd hno hk
  obtain ⟨hstayed, hmoved, hunmoved⟩ := hstay
  rcases h.learn_cases parent name hf with
    ⟨hp, he⟩ | ⟨hp, hk, he⟩ | ⟨hp, hk, hm, hfull, he⟩ | ⟨hp, hk, hroom, map', he, hl⟩
  · constructor <;> simp_all
  · constructor <;> simp_all
  · constructor <;> simp_all
  · constructor <;> simp_all
    exact hroom.resolve_left

/-- Every map of a run is a tree under its root: every mapped directory's chain reaches
    the root and is resolved, a link is refused where its parent is not known, where it
    would close a cycle, or where there is no room, and a removal takes exactly a subtree.
    A call counts its changes, modulo `2 ^ 64`. -/
theorem directory_tree {root : Frn} {max_directories : Option Nat}
    (h : Run root max_directories map) :
    Rooted map ∧ map.root = root ∧ map.max_directories = max_directories ∧
      (∀ k, Mapped map k → Above map.up root k) ∧
      (∀ k, (map.resolve_dir k).isSome = true ↔ Known map k) ∧
      (∀ frn parent name, frn ≠ root → Linking map frn parent name) ∧
      (∀ frn, (¬ Mapped map frn → map.forget frn = map) ∧
        (Mapped map frn → Forgotten map (map.forget frn) frn)) ∧
      ∀ op : Op, root ∉ op.subjects → ∃ n ≤ op.changes, Advanced map (op.apply map) n := by
  obtain ⟨hr, rfl, hcap⟩ := h.rooted
  refine ⟨hr, rfl, hcap, fun k hk => hr.above (.inr hk), fun k => hr.resolve_dir_isSome, ?_, ?_, ?_⟩
  · intro frn parent name hf
    exact hr.linking hf
  · intro frn
    exact ⟨Rooted.forget_absent, hr.forget_mapped⟩
  · intro op hs
    exact Op.advanced hr hs

/-- A directory seeded below the root. -/
theorem directory_tree_seeded :
    Rooted (Op.apply (FrnMap.new 1 none) (.seed [(10, 1, ['a']), (20, 10, ['b'])])) := by
  have hs : (1 : Frn) ∉ (Op.seed [(10, 1, ['a']), (20, 10, ['b'])]).subjects := by decide
  exact (directory_tree (.step .new hs)).1

/-- A map that was cleared `n` times. -/
def cleared : Nat → FrnMap
  | 0 => FrnMap.new 1 none
  | n + 1 => Op.apply (cleared n) .clear

theorem run_cleared (n : Nat) : Run 1 none (cleared n) := by
  induction n with
  | zero => exact .new
  | succ n ih => exact ih.step (by simp [Op.subjects])

theorem generation_cleared (n : Nat) : (cleared n).generation = UInt64.ofNat n := by
  induction n with
  | zero => rfl
  | succ n ih =>
    show (cleared n).generation + 1 = _
    rw [ih, UInt64.ofNat_add]
    rfl

/-- After enough changes the counter starts over, so a change need not increase it; and
    a link below a directory that is not known is refused where it would knot nothing. -/
theorem generation_starts_over :
    (∃ map, map = cleared (2 ^ 64 - 1) ∧ Run 1 none map ∧ (1 : Frn) ∉ Op.clear.subjects ∧
      Op.apply map .clear ≠ map ∧ ¬ map.generation < (Op.apply map .clear).generation) ∧
    ((FrnMap.new 1 none).learn 10 99 ['a']).1 = .outside_root ∧
      ¬ Knots (FrnMap.new 1 none) 10 99 := by
  refine ⟨?_, by decide +kernel, ?_⟩
  · have hr := run_cleared (2 ^ 64 - 1)
    have hmax := generation_cleared (2 ^ 64 - 1)
    generalize hm : cleared (2 ^ 64 - 1) = map at hr hmax
    have hzero : (Op.apply map .clear).generation = 0 := by
      show map.generation + 1 = 0
      rw [hmax]
      rfl
    refine ⟨map, rfl, hr, by decide, ?_, ?_⟩
    · intro he
      have hsame := congrArg FrnMap.generation he
      rw [hzero, hmax] at hsame
      exact absurd hsame (by decide)
    · rw [hzero]
      exact Nat.not_lt_zero _
  · have hn := Rooted.new 1 none
    intro hk
    rcases ((knots_iff hn.grounded).mp hk).cases_parent with he | ⟨p, hp, -⟩
    · exact absurd he (by decide)
    · simp [FrnMap.up, FrnMap.new] at hp

end Usn
