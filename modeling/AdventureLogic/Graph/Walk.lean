import AdventureLogic.FiniteSet
import AdventureLogic.Graph.Basic

/-!
# Walking a graph depth first

The walk visits every node that can be reached from the root, each once, and
notes from where it came. It keeps a stack of visits still to be made and the
set of nodes not yet visited; of the successors of a node the first one is
explored first.

Key definitions: `Visit`, `Graph.walk`, `Graph.preorder`.
-/

namespace AdventureLogic

/-- A visit to a node, and the node it was entered from. The root has none. -/
structure Visit where
  node : NodeId
  parent : Option NodeId
  deriving DecidableEq, Inhabited

namespace Graph

/-- The visits that a node adds to the stack: its unvisited successors in order. -/
def fanOut (g : Graph) (unvisited : Std.TreeSet NodeId) (n : NodeId) : List Visit :=
  ((g.successors n).filter unvisited.contains).map fun s => ⟨s, some n⟩

/-- Makes the visits on the stack, the top first. A node that does not exist or has been visited is
passed over. -/
def walkFrom (g : Graph) (unvisited : Std.TreeSet NodeId) (stack : List Visit) : List Visit :=
  match stack with
  | [] => []
  | v :: stack =>
    if v.node ∈ unvisited then
      let left := unvisited.erase v.node
      v :: walkFrom g left (g.fanOut left v.node ++ stack)
    else walkFrom g unvisited stack
termination_by (unvisited.size, stack.length)
decreasing_by
  · rename_i h
    exact Prod.Lex.left _ _ (FiniteSet.size_erase_lt h)
  · exact Prod.Lex.right _ (by simp)

/-- The visits of a depth-first walk from the root, in order. -/
def walk (g : Graph) : List Visit := g.walkFrom (.ofList g.nodes) [⟨g.root, none⟩]

/-- The nodes that can be reached from the root, in the order of the walk. -/
def preorder (g : Graph) : List NodeId := g.walk.map Visit.node

end Graph
end AdventureLogic
