import AdventureLogic.Buckets
import AdventureLogic.Dominance.Numbering
import AdventureLogic.Dominance.Tour
import AdventureLogic.Event
import AdventureLogic.Graph.Dot
import AdventureLogic.Graph.Reverse

/-!
# Dominator trees

A node dominates another if every path from the root to the other passes
through it. The dominator tree of a graph holds the nodes that can be reached
from its root; above each of them stands its immediate dominator. A tour of
the tree notes when it enters and leaves each node, and a node dominates those
that are entered and left meanwhile. A question about any other node is
answered with a fault that names it.

Key definitions: `DominatorTree`, `Graph.dominators`, `Graph.postDominators`,
`DominatorTree.dominates`.
-/

namespace AdventureLogic

open Dominance

/-- The nodes right below each number, in order. -/
def DominatorTree.belowOf (order : NodeOrder) (idom : Array Nat) : Array (List NodeId) :=
  Buckets.fill order.size (fun v => idom.getD v 0) order.nodeAt (List.range' 1 (order.size - 1))

/-- A dominator tree, over the numbers that a walk gives the nodes. -/
structure DominatorTree where
  root : NodeId
  /-- The names of all nodes of the graph. -/
  names : Array String
  /-- The nodes of the tree, in the order of their numbers. -/
  order : NodeOrder
  /-- The number of each node's immediate dominator; 0 for the root. -/
  idom : Array Nat
  /-- The nodes right below each number. -/
  below : Array (List NodeId) := DominatorTree.belowOf order idom
  below_eq : below = DominatorTree.belowOf order idom := by rfl
  /-- When a tour of the tree enters and leaves each number. -/
  tour : Tour := Tour.ofTree order below root
  tour_eq : tour = Tour.ofTree order below root := by rfl

namespace Graph

/-- The dominator tree of a graph. -/
def dominators (g : Graph) : DominatorTree :=
  let d := Numbering.ofGraph g
  { root := g.root
    names := (g.nodes.map g.identity).toArray
    order := d.order
    idom := d.immediateDominators g }

/-- The post-dominator tree of a graph, whose root is the virtual exit. -/
def postDominators (g : Graph) : DominatorTree := g.reversed.dominators

end Graph

namespace DominatorTree

/-- The number of nodes. -/
def size (t : DominatorTree) : Nat := t.order.size

/-- Whether the tree has no nodes, because the graph has no root. -/
def isEmpty (t : DominatorTree) : Bool := t.size == 0

/-- The number of a node. -/
def number? (t : DominatorTree) (n : NodeId) : Option Nat := t.order.place? n

/-- Whether a node is in the tree. -/
def contains (t : DominatorTree) (n : NodeId) : Bool := (t.number? n).isSome

/-- The nodes of the tree in order. -/
def nodes (t : DominatorTree) : List NodeId := (List.range t.names.size).filter t.contains

/-- The name of a node, for faults. -/
def nameOf (t : DominatorTree) (n : NodeId) : String := t.names.getD n ("#" ++ toString n)

/-- The number of a node that has to be in the tree. -/
def number (t : DominatorTree) (n : NodeId) : Except Error Nat :=
  match t.number? n with
  | some w => .ok w
  | none => .error (.unknownNode (t.nameOf n))

/-- The node above a number; the root has none. -/
def parentOf (t : DominatorTree) (w : Nat) : Option NodeId :=
  if w = 0 then none else some (t.order.nodeAt (t.idom.getD w 0))

/-- The immediate dominator of a node; the root has none. -/
def immediateDominator (t : DominatorTree) (n : NodeId) : Except Error (Option NodeId) :=
  (t.number n).map t.parentOf

/-- The nodes whose immediate dominator has the number `w`, in the order of the walk. -/
def childrenOf (t : DominatorTree) (w : Nat) : List NodeId := t.below.getD w []

theorem childrenOf_eq (t : DominatorTree) {w : Nat} (h : w < t.size) :
    t.childrenOf w =
      ((List.range' 1 (t.size - 1)).filter fun v => t.idom.getD v 0 = w).map t.order.nodeAt := by
  rw [childrenOf, t.below_eq]
  exact Buckets.getD_fill h _ _ _

/-- The nodes that a node dominates immediately. -/
def children (t : DominatorTree) (n : NodeId) : Except Error (List NodeId) :=
  (t.number n).map t.childrenOf

/-- Whether every path from the root to `b` passes through `a`. -/
def dominates (t : DominatorTree) (a b : NodeId) : Except Error Bool := do
  let v ← t.number a
  let w ← t.number b
  return t.tour.encloses v w

/-- Whether `a` is the immediate dominator of `b`. -/
def immediatelyDominates (t : DominatorTree) (a b : NodeId) : Except Error Bool := do
  let _ ← t.number a
  return (← t.immediateDominator b) == some a

/-- The node with the name, which has to be in the tree. -/
def lookup (t : DominatorTree) (name : String) : Except Error NodeId :=
  match t.names.idxOf? name with
  | some n => if t.contains n then .ok n else .error (.unknownNode name)
  | none => .error (.unknownNode name)

/-- The drawing of the tree. -/
def dot (t : DominatorTree) (name : String) : String :=
  Dot.drawing name
    (t.nodes.map fun n => Dot.nodeLine n (t.nameOf n))
    (t.nodes.flatMap fun m =>
      (t.number? m).elim [] fun w =>
        (t.childrenOf w).map fun n => Dot.edgeLine m n (some "idom"))

end DominatorTree

namespace Graph

/-- What is reported when the dominator tree of a graph is computed. -/
def dominatorsEvent (g : Graph) : Event :=
  .numbered g.walk.length g.size (g.identity g.root)

end Graph
end AdventureLogic
