import AdventureLogic.Dominance.Forest
import AdventureLogic.Dominance.NodeOrder
import AdventureLogic.Graph.Walk

/-!
# Semidominators and immediate dominators

Dominators are computed on the numbers that a depth-first walk gives the nodes
it reaches.

The semidominator of a node is the smallest number from which a path leads to
the node through larger numbers only. From the largest number down, it is the
least that the parent and the predecessors offer: a predecessor with a smaller
number offers itself, any other the smallest semidominator above it in the
link forest.

From the smallest number up, the immediate dominator is found by climbing from
the parent up the dominators found so far, to the first that is not above the
semidominator.

Key definitions: `Numbering`, `Numbering.semidominators`,
`Numbering.immediateDominators`.
-/

namespace AdventureLogic
namespace Dominance

/-- The nodes that a walk reaches, numbered in the order of the walk. -/
structure Numbering where
  /-- The nodes in order. -/
  order : NodeOrder
  /-- The number of each node's parent in the walk; 0 for the root. -/
  parent : Array Nat
  deriving Inhabited

namespace Numbering

/-- The number of reached nodes. -/
def count (d : Numbering) : Nat := d.order.size

/-- The number of a node, if it is reached. -/
def number? (d : Numbering) (n : NodeId) : Option Nat := d.order.place? n

/-- The node of a number. -/
def vertexOf (d : Numbering) (w : Nat) : NodeId := d.order.nodeAt w

/-- The number of the parent. -/
def parentOf (d : Numbering) (w : Nat) : Nat := d.parent.getD w 0

/-- The numbering of a graph. -/
def ofGraph (g : Graph) : Numbering :=
  let visits := g.walk
  let order : NodeOrder := { nodes := (visits.map Visit.node).toArray }
  { order := order
    parent := (visits.map fun v => (v.parent.bind order.place?).getD 0).toArray }

/-- The numbers of the reached predecessors of a node. -/
def predecessors (d : Numbering) (g : Graph) (w : Nat) : List Nat :=
  (g.predecessors (d.vertexOf w)).filterMap d.number?

/-- What a predecessor `v` of `w` offers as the semidominator of `w`. -/
def offer (f : Forest) (w v : Nat) : Nat × Forest :=
  if v < w then (v, f)
  else
    let (u, f) := f.eval v
    (f.semiOf u, f)

/-- The least of `least` and what the predecessors `vs` of `w` offer. -/
def leastOffer (w : Nat) (f : Forest) (least : Nat) : List Nat → Nat × Forest
  | [] => (least, f)
  | v :: vs =>
    let (s, f) := offer f w v
    leastOffer w f (min least s) vs

/-- Finds the semidominator of `w`, whose larger numbers are done, and links `w` to its parent. -/
def settle (d : Numbering) (g : Graph) (f : Forest) (w : Nat) : Forest :=
  let (s, f) := leastOffer w f (d.parentOf w) (d.predecessors g w)
  (f.setSemi w s).link (d.parentOf w) w

/-- Settles the numbers from `w` down to 1. -/
def settleDown (d : Numbering) (g : Graph) (f : Forest) : Nat → Forest
  | 0 => f
  | w + 1 => settleDown d g (d.settle g f (w + 1)) w

/-- The forest in which all semidominators are known. -/
def semidominators (d : Numbering) (g : Graph) : Forest :=
  d.settleDown g (Forest.isolated d.count) (d.count - 1)

/-- Climbs from `x` up the dominators to a number not above `limit`. -/
def climb (idom : Array Nat) (limit x : Nat) : Nat :=
  if x ≤ limit then x
  else if idom.getD x 0 < x then climb idom limit (idom.getD x 0)
  else x
termination_by x
decreasing_by assumption

/-- Finds the immediate dominator of `w`, whose smaller numbers are done. -/
def raise (f : Forest) (idom : Array Nat) (w : Nat) : Array Nat :=
  idom.setIfInBounds w (climb idom (f.semiOf w) (idom.getD w 0))

/-- The number of each node's immediate dominator; 0 for the root. -/
def immediateDominators (d : Numbering) (g : Graph) : Array Nat :=
  (List.range' 1 (d.count - 1)).foldl (raise (d.semidominators g)) d.parent

end Numbering
end Dominance
end AdventureLogic
