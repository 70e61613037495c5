import AdventureLogic.Graph.Basic

/-!
# Reversed graphs

Post-dominance is dominance with all edges turned round. A graph may have
several exits, so its reversal usually gets a node of its own as the root: the
virtual exit, numbered one past the last node, from which every exit of the
graph is entered.

Key definitions: `Graph.reversedAt`, `Graph.reversed`.
-/

namespace AdventureLogic
namespace Graph

/-- The graph with all edges turned round, rooted at one of its own nodes. -/
def reversedAt (g : Graph) (root : NodeId) : Graph where
  root := root
  size := g.size
  successors := g.predecessors
  predecessors := g.successors
  identity := g.identity
  label := g.label
  edgeLabel m n := g.edgeLabel n m

/-- The number of the virtual exit. -/
def virtualExit (g : Graph) : NodeId := g.size

/-- The graph with all edges turned round, rooted at a virtual exit from which the exits of the
graph are entered. -/
def reversed (g : Graph) : Graph :=
  let exits := g.exits
  { root := g.virtualExit
    size := g.size + 1
    successors := fun n => if n = g.virtualExit then exits else g.predecessors n
    predecessors := fun n =>
      if n = g.virtualExit then []
      else g.successors n ++ (if g.isExit n then [g.virtualExit] else [])
    identity := fun n => if n = g.virtualExit then "exit" else g.identity n
    label := fun n => if n = g.virtualExit then "exit" else g.label n
    edgeLabel := fun m n =>
      if m = g.virtualExit ∨ n = g.virtualExit then none else g.edgeLabel n m }

end Graph
end AdventureLogic
