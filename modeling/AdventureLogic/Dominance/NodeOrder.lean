import AdventureLogic.Graph.Basic
import Std.Data.TreeMap

/-!
# Nodes in an order

The nodes that a walk reaches, in its order. The place of a node in the order
is its number; it is asked for so often that it is kept for every node.

Key definitions: `NodeOrder`, `NodeOrder.place?`. Key theorem:
`NodeOrder.place?_eq`: the place of a node is where a search finds it first.
-/

namespace AdventureLogic
namespace Dominance

namespace NodeOrder

/-- The place of each node where it stands first. -/
def placesOf (nodes : Array NodeId) : Std.TreeMap NodeId Nat :=
  nodes.toList.zipIdx.foldr (fun p places => places.insert p.1 p.2) ∅

end NodeOrder

/-- Nodes in an order, with the place of each. -/
structure NodeOrder where
  nodes : Array NodeId
  places : Std.TreeMap NodeId Nat := NodeOrder.placesOf nodes
  places_eq : places = NodeOrder.placesOf nodes := by rfl

namespace NodeOrder

instance : Inhabited NodeOrder := ⟨{ nodes := #[] }⟩

/-- The number of nodes. -/
def size (o : NodeOrder) : Nat := o.nodes.size

/-- The node at a place. -/
def nodeAt (o : NodeOrder) (w : Nat) : NodeId := o.nodes.getD w 0

/-- The place of a node, if it has one. -/
def place? (o : NodeOrder) (n : NodeId) : Option Nat := o.places[n]?

theorem getElem?_foldr_insert (n : NodeId) : ∀ (l : List NodeId) (k : Nat),
    ((l.zipIdx k).foldr (fun p places => places.insert p.1 p.2)
      (∅ : Std.TreeMap NodeId Nat))[n]? = (l.idxOf? n).map (· + k)
  | [], k => by simp
  | m :: rest, k => by
    have ih := getElem?_foldr_insert n rest (k + 1)
    rw [List.zipIdx_cons, List.foldr_cons, Std.TreeMap.getElem?_insert, ih, List.idxOf?_cons]
    by_cases hm : m = n
    · subst hm
      simp
    · have hc : compare m n ≠ .eq := fun e => hm (Std.LawfulEqCmp.eq_of_compare e)
      rw [if_neg hc, if_neg (by simpa using hm), Option.map_map]
      congr 1
      funext i
      simp only [Function.comp]
      omega

/-- The place of a node is where a search finds it first. -/
theorem place?_eq (o : NodeOrder) (n : NodeId) : o.place? n = o.nodes.idxOf? n := by
  rw [place?, o.places_eq, placesOf, getElem?_foldr_insert, ← List.idxOf?_toArray,
    Array.toArray_toList]
  simp

end NodeOrder
end Dominance
end AdventureLogic
