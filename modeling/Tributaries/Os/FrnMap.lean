import Tributaries.Collections
import Tributaries.Forest

/-! # The directory map of a journal root

  The directories under a root, by file reference number, each with its name
  and a link to its parent; the root itself is implicit.  The children of a
  directory are kept beside the links.

  Every link is refused that would close a cycle, so walking up from a mapped
  directory reaches the root.
-/

open Collections Std Forest

namespace Usn

abbrev Frn : Type := BitVec 128

instance instTransOrdFrn : TransOrd Frn := BitVec.instTransOrd

structure FrnNode where
  parent : Frn
  name : List Char
  deriving DecidableEq

inductive LearnOutcome where
  | learned
  | outside_root
  | over_capacity
  | inconsistent
  deriving DecidableEq, Repr

structure FrnMap where
  root : Frn
  nodes : Map Frn FrnNode
  children : Map Frn (OSet Frn)
  generation : UInt64
  max_directories : Option Nat

/-- The children sets with `frn` taken out of `parent`'s, if that is there. -/
def unlink (children : Map Frn (OSet Frn)) (parent frn : Frn) : Map Frn (OSet Frn) :=
  children.modify parent fun siblings => siblings.erase frn

def link (children : Map Frn (OSet Frn)) (parent frn : Frn) : Map Frn (OSet Frn) :=
  children.insert parent ((children.getD parent ∅).insert frn)

/-- The children sets once `cursor`'s node is taken out. -/
def detach (nodes : Map Frn FrnNode) (children : Map Frn (OSet Frn)) (cursor : Frn) :
    Map Frn (OSet Frn) :=
  match nodes[cursor]? with
  | none => children
  | some node => unlink children node.parent cursor

/-- The loop of `forget`; the stack is given from its top. -/
def forget_from (nodes : Map Frn FrnNode) (children : Map Frn (OSet Frn)) (stack : List Frn) :
    Map Frn FrnNode × Map Frn (OSet Frn) :=
  match stack with
  | [] => (nodes, children)
  | cursor :: stack =>
    match _h : children[cursor]? with
    | none => forget_from (nodes.erase cursor) (detach nodes children cursor) stack
    | some below =>
      forget_from (nodes.erase cursor) (detach nodes (children.erase cursor) cursor)
        (below.toList.reverse ++ stack)
  termination_by (children.size, stack.length)
  decreasing_by
    · simp_wf
      unfold detach unlink
      split
      · right
        omega
      · rw [ExtTreeMap.size_modify]
        right
        omega
    · simp_wf
      left
      have hc : children.contains cursor = true := contains_iff.mpr ⟨below, _h⟩
      have hpos : 1 ≤ children.size := length_le_size (l := [cursor]) (by simp) (by simpa using hc)
      have herase : (children.erase cursor).size = children.size - 1 := by
        rw [ExtTreeMap.size_erase, if_pos hc]
      unfold detach unlink
      split
      · omega
      · rw [ExtTreeMap.size_modify]
        omega

namespace FrnMap

def new (root : Frn) (max_directories : Option Nat) : FrnMap :=
  { root, nodes := ∅, children := ∅, generation := 0, max_directories }

variable (map : FrnMap)

def directories : Nat := map.nodes.size

def is_root (frn : Frn) : Bool := frn == map.root

def contains (frn : Frn) : Bool := map.is_root frn || map.nodes.contains frn

/-- The walk up from `cursor`, with the components met so far, outermost first. -/
def resolve_from : Nat → List (List Char) → Frn → Option (List (List Char))
  | 0, _, _ => none
  | turns + 1, components, cursor =>
    match map.nodes[cursor]? with
    | none => none
    | some node =>
      if node.parent = map.root then some (node.name :: components)
      else resolve_from turns (node.name :: components) node.parent

def resolve_dir (frn : Frn) : Option (List (List Char)) :=
  if map.is_root frn then some []
  else map.resolve_from (map.nodes.size + 1) [] frn

def resolve_child (parent : Frn) (name : List Char) : Option (List (List Char)) :=
  (map.resolve_dir parent).map fun components => components ++ [name]

/-- The walk up from `cursor`, in search of `frn`; one that does not end finds it. -/
def descends_within (frn : Frn) : Nat → Frn → Bool
  | 0, _ => true
  | turns + 1, cursor =>
    if cursor = frn then true
    else if cursor = map.root then false
    else
      match map.nodes[cursor]? with
      | some node => descends_within frn turns node.parent
      | none => true

def descends_from (new_parent frn : Frn) : Bool :=
  map.descends_within frn (map.nodes.size + 1) new_parent

def knots (frn new_parent : Frn) : Bool :=
  map.nodes.contains frn && map.descends_from new_parent frn

/-- The counter wraps. -/
def learn (frn parent : Frn) (name : List Char) : LearnOutcome × FrnMap :=
  if !map.contains parent then
    (.outside_root, map)
  else if map.nodes.contains frn && map.descends_from parent frn then
    (.inconsistent, map)
  else if map.max_directories.any fun cap =>
      cap ≤ map.nodes.size && !map.nodes.contains frn then
    (.over_capacity, map)
  else
    let children :=
      match map.nodes[frn]? with
      | some existing => unlink map.children existing.parent frn
      | none => map.children
    (.learned,
      { map with
        nodes := map.nodes.insert frn { parent, name }
        children := link children parent frn
        generation := map.generation + 1 })

/-- The entries of a walk; one that is refused is dropped. -/
def seed (entries : List (Frn × Frn × List Char)) : FrnMap :=
  entries.foldl (fun map entry => (map.learn entry.1 entry.2.1 entry.2.2).2) map

def forget (frn : Frn) : FrnMap :=
  if map.nodes.contains frn then
    let (nodes, children) := forget_from map.nodes map.children [frn]
    { map with nodes, children, generation := map.generation + 1 }
  else map

def reparent (frn new_parent : Frn) (new_name : List Char) : Bool × FrnMap :=
  match map.nodes[frn]? with
  | none => (false, map)
  | some node =>
    if !map.contains new_parent then
      (false, map)
    else if map.descends_from new_parent frn then
      (false, map)
    else
      (true,
        { map with
          nodes := map.nodes.modify frn fun _ => { parent := new_parent, name := new_name }
          children := link (unlink map.children node.parent frn) new_parent frn
          generation := map.generation + 1 })

def clear : FrnMap :=
  { map with nodes := ∅, children := ∅, generation := map.generation + 1 }

end FrnMap

end Usn
