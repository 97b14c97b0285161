import Tributaries.Proto.Session

/-! # Watch-tree integrity

  What a reader of the watch tree may rely on between two calls: its four
  maps mirror each other, every watch reaches the root of its scope, and
  no two watches outside the held subtrees stand at one path.
-/

open Std Collections SlotForest Forest

namespace Proto

variable {m : Monitor}

namespace Monitor

/-- The parent of a live watch. -/
def parent_link (m : Monitor) (x : WatchId) : Option WatchId := (m.nodes[x]?).bind (·.parent)

/-- The mirrors of the watch tree agree. -/
structure Integrity (m : Monitor) : Prop where
  indexed : ∀ (parent : WatchId) (name : Segment) (x : WatchId),
    m.child_index[(parent, name)]? = some x →
      ∃ node : WatchNode, m.nodes[x]? = some node ∧ node.parent = some parent ∧
        node.name = some name
  children : ∀ (parent : WatchId) (node : WatchNode) (x : WatchId),
    m.nodes[parent]? = some node → (x ∈ node.children ↔
      ∃ child : WatchNode, m.nodes[x]? = some child ∧ child.parent = some parent)
  chain : ∀ (x : WatchId) (node : WatchNode), m.nodes[x]? = some node →
    ∃ l root, Chain m.parent_link x l ∧ l.Nodup ∧ l.getLast? = some root ∧
      m.roots[node.scope]? = some root ∧ ∀ y ∈ l, ∃ above : WatchNode,
        m.nodes[y]? = some above ∧ above.scope = node.scope ∧ (above.parent = none ↔ y = root)
  slotted : ∀ (x : WatchId) (node : WatchNode), m.nodes[x]? = some node → x ∉ m.held_sources →
    m.roots[node.scope]? = some x ∨ ∃ parent name, node.parent = some parent ∧
      node.name = some name ∧ m.child_index[(parent, name)]? = some x
  located : ∀ x : WatchId, m.nodes[x]? ≠ none → m.location_of_checked x = some (m.location_of x)
  unique : ∀ (x y : WatchId) (nx ny : WatchNode), m.nodes[x]? = some nx → m.nodes[y]? = some ny →
    nx.scope = ny.scope → m.in_held_subtree x = none → m.in_held_subtree y = none →
    m.location_of x = m.location_of y → x = y

theorem parent_link_up : m.parent_link = m.shape.up := by
  funext x
  rw [up_of]
  rfl

/-! ### Chains read from the root -/

/-- The last node of a chain is the only one without a parent. -/
theorem chain_last {up : WatchId → Option WatchId} {x : WatchId} {l : List WatchId}
    (h : Chain up x l) : ∃ r, l.getLast? = some r ∧ ∀ y ∈ l, (up y = none ↔ y = r) := by
  induction h with
  | @root x hx =>
    refine ⟨x, rfl, fun y hy => ?_⟩
    obtain rfl := List.mem_singleton.mp hy
    exact ⟨fun _ => rfl, fun _ => hx⟩
  | @step x p l hx hp ih =>
    obtain ⟨r, hr, hall⟩ := ih
    refine ⟨r, by rw [List.getLast?_cons, hr]; rfl, fun y hy => ?_⟩
    rcases List.mem_cons.mp hy with rfl | hy
    · refine ⟨fun h => ?_, ?_⟩
      · rw [hx] at h
        cases h
      · rintro rfl
        exact (hall _ (List.mem_of_getLast? hr)).mpr rfl
    · exact hall y hy

/-- The checked walk reads the same names, as far as the root. -/
theorem location_checked_chain {root x : WatchId} {l : List WatchId}
    (h : Chain m.shape.up x l) (hr : ∀ y ∈ l, (m.shape.up y = none ↔ y = root))
    (hall : ∀ y ∈ l, ∃ n : WatchNode, m.nodes[y]? = some n ∧ (n.parent = none ↔ n.name = none))
    {k : Nat} (hk : l.length ≤ k) (segments : Location) :
    m.location_checked_loop root k x segments = some (m.names l ++ segments) := by
  induction h generalizing k segments with
  | @root x hx =>
    obtain ⟨k, rfl⟩ : ∃ n, k = n + 1 := ⟨k - 1, by simp at hk; omega⟩
    obtain ⟨n, hn, hnamed⟩ := hall x (by simp)
    obtain rfl := (hr x (by simp)).mp hx
    have hname : n.name = none := hnamed.mp (by rw [← up_live hn]; exact hx)
    simp [location_checked_loop, names, hn, hname]
  | @step x p l hx hp ih =>
    obtain ⟨k, rfl⟩ : ∃ n, k = n + 1 := ⟨k - 1, by simp at hk; omega⟩
    obtain ⟨n, hn, hnamed⟩ := hall x (by simp)
    have hpar : n.parent = some p := by rw [← up_live hn]; exact hx
    have hne : x ≠ root := by
      rintro rfl
      have := (hr x (by simp)).mpr rfl
      rw [hx] at this
      cases this
    have hsome : n.name ≠ none := fun h => by
      have := hnamed.mpr h
      rw [hpar] at this
      cases this
    obtain ⟨name, hname⟩ := Option.ne_none_iff_exists'.mp hsome
    have htail := ih (fun y hy => hr y (List.mem_cons_of_mem _ hy))
      (fun y hy => hall y (List.mem_cons_of_mem _ hy)) (k := k) (by simpa using hk)
      (name :: segments)
    simp only [location_checked_loop, beq_iff_eq, if_neg hne, hn, hname, hpar, htail]
    simp [names, hn, hname]

/-! ### One watch per path -/

theorem names_cons {x : WatchId} {l : List WatchId} {n : WatchNode} (hn : m.nodes[x]? = some n) :
    m.names (x :: l) = m.names l ++ n.name.toList := by
  cases hname : n.name <;> simp [names, hn, hname]

/-- Two watches of one scope off every hold stand at one path only if they
    are one watch. -/
theorem unique_path (h : m.shape.Sound ∅)
    (hroot : ∀ (x : WatchId) (n : WatchNode), m.nodes[x]? = some n → n.parent = none →
      m.roots[n.scope]? = some x)
    (hslot : ∀ (x : WatchId) (n : WatchNode) (p : WatchId) (name : Segment),
      m.nodes[x]? = some n → x ∉ m.held_sources → n.parent = some p →
      n.name = some name → m.child_index[(p, name)]? = some x)
    {x : WatchId} {l : List WatchId} (hl : Chain m.shape.up x l) :
    ∀ {y : WatchId} {l' : List WatchId} {nx ny : WatchNode}, Chain m.shape.up y l' →
      m.nodes[x]? = some nx → m.nodes[y]? = some ny → nx.scope = ny.scope →
      (∀ z ∈ l, z ∉ m.held_sources) → (∀ z ∈ l', z ∉ m.held_sources) →
      m.names l = m.names l' → x = y := by
  induction hl with
  | @root x hx =>
    intro y l' nx ny hl' hnx hny hsc _ _ hnames
    have hpx : nx.parent = none := by rw [← up_live hnx]; exact hx
    have hx₀ := (h.named x _ (place_of hnx)).mp hpx
    have hx₀ : nx.name = none := hx₀
    cases hl' with
    | root hy =>
      have hpy : ny.parent = none := by rw [← up_live hny]; exact hy
      have h₁ := hroot x nx hnx hpx
      have h₂ := hroot y ny hny hpy
      rw [hsc, h₂] at h₁
      exact (Option.some.inj h₁).symm
    | step hy hq =>
      -- a watch with a parent has a name of its own
      have hpy : ny.parent ≠ none := by rw [← up_live hny, hy]; simp
      have hname : ny.name ≠ none := fun hn => hpy ((h.named y _ (place_of hny)).mpr hn)
      obtain ⟨name, hname⟩ := Option.ne_none_iff_exists'.mp hname
      rw [names_cons hny, names_cons hnx, hx₀, hname] at hnames
      simp [names] at hnames
  | @step x p l hx hp ih =>
    intro y l' nx ny hl' hnx hny hsc hfx hfy hnames
    have hpx : nx.parent = some p := by rw [← up_live hnx]; exact hx
    have hname : nx.name ≠ none := fun hn => by
      have := (h.named x _ (place_of hnx)).mpr hn
      rw [show (WatchNode.place nx).parent = nx.parent from rfl, hpx] at this
      cases this
    obtain ⟨name, hname⟩ := Option.ne_none_iff_exists'.mp hname
    cases hl' with
    | root hy =>
      have hpy : ny.parent = none := by rw [← up_live hny]; exact hy
      have hy₀ : ny.name = none := (h.named y _ (place_of hny)).mp hpy
      rw [names_cons hnx, names_cons hny, hname, hy₀] at hnames
      simp [names] at hnames
    | @step _ q l' hy hq =>
      have hpy : ny.parent = some q := by rw [← up_live hny]; exact hy
      have hname' : ny.name ≠ none := fun hn => by
        have := (h.named y _ (place_of hny)).mpr hn
        rw [show (WatchNode.place ny).parent = ny.parent from rfl, hpy] at this
        cases this
      obtain ⟨name', hname'⟩ := Option.ne_none_iff_exists'.mp hname'
      rw [names_cons hnx, names_cons hny, hname, hname'] at hnames
      obtain ⟨hinit, hlast⟩ := List.append_inj' hnames rfl
      obtain rfl : name = name' := by simpa using hlast
      obtain ⟨qp, hqp, hsp, -⟩ := (h.linked x _ p (place_of hnx) hpx).resolve_right (by simp)
      obtain ⟨qq, hqq, hsq, -⟩ := (h.linked y _ q (place_of hny) hpy).resolve_right (by simp)
      obtain ⟨np, hnp, rfl⟩ := place_eq_some.mp hqp
      obtain ⟨nq, hnq, rfl⟩ := place_eq_some.mp hqq
      have hpq : p = q := ih hq hnp hnq ((hsp.trans hsc).trans hsq.symm)
        (fun z hz => hfx z (List.mem_cons_of_mem _ hz))
        (fun z hz => hfy z (List.mem_cons_of_mem _ hz)) hinit
      subst hpq
      have h₁ := hslot x nx p name hnx (hfx x (by simp)) hpx hname
      have h₂ := hslot y ny p name hny (hfy y (by simp)) hpy hname'
      exact Option.some.inj (h₁.symm.trans h₂)

end Monitor

/-! ### Every run -/

open Monitor

/-- The invariants give the integrity of the tree between calls. -/
theorem Inv.integrity {c : Moment} (h : Inv c) (hw : c.g.walk = none) (ht : c.g.transit = none) :
    c.m.Integrity := by
  obtain ⟨m, g⟩ := c
  have hs := h.sound hw
  have hslot : ∀ (x : WatchId) (n : WatchNode) (p : WatchId) (name : Segment),
      m.nodes[x]? = some n → x ∉ m.held_sources → n.parent = some p →
      n.name = some name → m.child_index[(p, name)]? = some x := by
    intro x n p name hn hf hp hname
    rcases h.holds.slotted x (p, name) (slot_of_eq_some.mpr ⟨n, hn, hp, hname⟩) with hh | hh | hi
    · exact absurd hh hf
    · rw [show g.transit = none from ht] at hh
      cases hh
    · exact hi
  have hroot : ∀ (x : WatchId) (n : WatchNode), m.nodes[x]? = some n → n.parent = none →
      m.roots[n.scope]? = some x :=
    fun x n hn hp => hs.root_of (place_of hn) hp
  refine ⟨fun p name x hi => ?_, fun p np x hp => ⟨fun hx => ?_, ?_⟩, fun x n hn => ?_,
    fun x n hn hf => ?_, fun x hx => ?_, fun x y nx ny hnx hny hsc hfx hfy hloc => ?_⟩
  · obtain ⟨q, hq, hpar, hname⟩ := hs.slot_up p name x hi
    obtain ⟨n, hn, rfl⟩ := place_eq_some.mp hq
    exact ⟨n, hn, hpar, hname⟩
  · obtain ⟨q, hq, hpar⟩ := hs.child_up p _ x (place_of hp) hx
    obtain ⟨n, hn, rfl⟩ := place_eq_some.mp hq
    exact ⟨n, hn, hpar⟩
  · rintro ⟨n, hn, hpar⟩
    obtain ⟨q, hq, -, hmem⟩ := (hs.linked x _ p (place_of hn) hpar).resolve_right (by simp)
    rw [place_of hp, Option.some.injEq] at hq
    subst hq
    exact hmem
  · obtain ⟨l, hl, -, hall, r, hr, hrr⟩ := chain_of hs hn
    obtain ⟨last, hlast, honly⟩ := chain_last hl
    obtain ⟨q, hq, hpar, -⟩ := hs.root_up n.scope r hrr
    obtain ⟨nr, hnr, rfl⟩ := place_eq_some.mp hq
    obtain rfl : r = last := (honly r hr).mp ((up_live hnr).trans hpar)
    rw [← parent_link_up] at hl
    refine ⟨l, r, hl, hl.nodup, hlast, hrr, fun y hy => ?_⟩
    obtain ⟨ny, hny, hsy⟩ := hall y hy
    exact ⟨ny, hny, hsy, by rw [← up_live hny]; exact honly y hy⟩
  · cases hp : n.parent with
    | none => exact .inl (hroot x n hn hp)
    | some p =>
      have hname : n.name ≠ none := fun hn' => by
        have := (hs.named x _ (place_of hn)).mpr hn'
        rw [show (WatchNode.place n).parent = n.parent from rfl, hp] at this
        cases this
      obtain ⟨name, hname⟩ := Option.ne_none_iff_exists'.mp hname
      exact .inr ⟨p, name, rfl, hname, hslot x n p name hn hf hp hname⟩
  · obtain ⟨n, hn⟩ := Option.ne_none_iff_exists'.mp hx
    obtain ⟨l, hl, hlen, hall, r, hr, hrr⟩ := chain_of hs hn
    obtain ⟨last, -, honly⟩ := chain_last hl
    obtain ⟨q, hq, hpar, -⟩ := hs.root_up n.scope r hrr
    obtain ⟨nr, hnr, rfl⟩ := place_eq_some.mp hq
    obtain rfl : r = last := (honly r hr).mp ((up_live hnr).trans hpar)
    have hloop := location_checked_chain hl honly (fun y hy => by
      obtain ⟨ny, hny, -⟩ := hall y hy
      exact ⟨ny, hny, hs.named y _ (place_of hny)⟩) hlen []
    rw [location_of_eq hs hl hn]
    simp only [location_of_checked, hn, hrr, hloop, List.append_nil]
  · obtain ⟨lx, hlx, -⟩ := chain_of hs hnx
    obtain ⟨ly, hly, -⟩ := chain_of hs hny
    rw [location_of_eq hs hlx hnx, location_of_eq hs hly hny] at hloc
    refine unique_path hs hroot hslot hlx hly hnx hny hsc (fun z hz => ?_) (fun z hz => ?_) hloc
    · exact (in_held_subtree_none hs).mp hfx z ((Above.iff_mem hlx).mpr hz)
    · exact (in_held_subtree_none hs).mp hfy z ((Above.iff_mem hly).mpr hz)

/-- The watch tree is intact after every call of every run. -/
theorem run_integrity {caps : Capabilities} {inputs : List Input}
    (hd : (Session.new caps).Drives false inputs) :
    ((Session.new caps).run inputs).m.Integrity :=
  (Session.run_valid hd).toInv.integrity rfl rfl

/-- The same, of a root that was widened. -/
theorem widened_integrity : ((Session.new ⟨false, false⟩).run widening).m.Integrity :=
  run_integrity widening_drives

end Proto
