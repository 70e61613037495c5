import AdventureLogic.Dominance.NodeOrder
import AdventureLogic.FiniteSet

/-!
# Touring a tree

A tour enters a node of a tree, tours what hangs below it from the first child
to the last, and leaves the node. A counter runs along and is noted whenever a
node is entered or left. What hangs below a node is entered after it and left
before it, so that two comparisons tell whether one node stands above another.

The nodes are told apart by their places in an order.

Key definitions: `Tour`, `Tour.ofTree`, `Tour.encloses`.
-/

namespace AdventureLogic
namespace Dominance

/-- When the nodes at the places of an order were entered and left. -/
structure Tour where
  /-- What is noted next. -/
  counter : Nat
  entered : Array Nat
  left : Array Nat

namespace Tour

/-- No node has been entered. -/
def start (size : Nat) : Tour where
  counter := 0
  entered := Array.replicate size 0
  left := Array.replicate size 0

/-- Notes that the node at place `w` is entered. -/
def enter (t : Tour) (w : Nat) : Tour :=
  { t with counter := t.counter + 1, entered := t.entered.setIfInBounds w t.counter }

/-- Notes that the node at place `w` is left. -/
def leave (t : Tour) (w : Nat) : Tour :=
  { t with counter := t.counter + 1, left := t.left.setIfInBounds w t.counter }

/-- Goes through a stack of nodes, the top first. A node that is not marked is entered: the mark is
put on it, and its children come before it. A marked one is left. Nodes that are not in the order
are passed over, and so are those that have been entered already. -/
def goOn (order : NodeOrder) (below : Array (List NodeId)) (unentered : Std.TreeSet Nat) (t : Tour)
    (stack : List (NodeId × Bool)) : Tour :=
  match stack with
  | [] => t
  | (n, finished) :: stack =>
    match order.place? n with
    | none => goOn order below unentered t stack
    | some w =>
      if finished then goOn order below unentered (t.leave w) stack
      else if w ∈ unentered then
        goOn order below (unentered.erase w) (t.enter w)
          ((below.getD w []).map (·, false) ++ (n, true) :: stack)
      else goOn order below unentered t stack
termination_by (unentered.size, stack.length)
decreasing_by
  · exact Prod.Lex.right _ (by simp)
  · exact Prod.Lex.right _ (by simp)
  · rename_i h
    exact Prod.Lex.left _ _ (FiniteSet.size_erase_lt h)
  · exact Prod.Lex.right _ (by simp)

/-- The tour of the tree with the root, in which `below` has the children of each place. -/
def ofTree (order : NodeOrder) (below : Array (List NodeId)) (root : NodeId) : Tour :=
  goOn order below (.ofList (List.range order.size)) (start order.size) [(root, false)]

/-- Whether the place `a` was entered before `b`, or is `b`, and left after it. -/
def encloses (t : Tour) (a b : Nat) : Bool :=
  t.entered.getD a 0 ≤ t.entered.getD b 0 && t.left.getD b 0 ≤ t.left.getD a 0

end Tour
end Dominance
end AdventureLogic
