import AdventureLogic.Buckets
import AdventureLogic.Error

/-!
# Rooted graphs

A graph has the nodes `0, …, size - 1`, one of which is its root. Edges have an
order, may be repeated and may name nodes that do not exist; such an edge leads
nowhere, but a node that has one is no exit. Each node has a name.

Key definitions: `Graph`, `Graph.exits`, `Graph.lookup`, `Graph.ofEdges`.
-/

namespace AdventureLogic

/-- The number of a node. -/
abbrev NodeId := Nat

/-- A rooted directed graph. -/
structure Graph where
  root : NodeId
  /-- The number of nodes. -/
  size : Nat
  /-- The ends of the edges from a node. -/
  successors : NodeId → List NodeId
  /-- The starts of the edges to a node. -/
  predecessors : NodeId → List NodeId
  /-- The name of a node. -/
  identity : NodeId → String
  /-- The text of a node in drawings. -/
  label : NodeId → String := identity
  /-- The text of an edge in drawings. -/
  edgeLabel : NodeId → NodeId → Option String := fun _ _ => none

namespace Graph

/-- The nodes in order. -/
def nodes (g : Graph) : List NodeId := List.range g.size

/-- Whether a node exists. -/
def contains (g : Graph) (n : NodeId) : Bool := n < g.size

/-- Whether a node exists and no edge leads from it. -/
def isExit (g : Graph) (n : NodeId) : Bool := g.contains n && (g.successors n).isEmpty

/-- The nodes without any edge from them. -/
def exits (g : Graph) : List NodeId := g.nodes.filter g.isExit

theorem mem_exits {g : Graph} {n : NodeId} : n ∈ g.exits ↔ g.isExit n = true := by
  simp only [exits, nodes, List.mem_filter, List.mem_range, isExit, contains, Bool.and_eq_true,
    decide_eq_true_eq]
  exact ⟨And.right, fun h => ⟨h.1, h⟩⟩

/-- The first node with the name. -/
def lookup (g : Graph) (name : String) : Except Error NodeId :=
  match g.nodes.find? fun n => g.identity n == name with
  | some n => .ok n
  | none => .error (.unknownNode name)

/-- The graph with the given edges, in their order. A node without a name of its own is called by
its number, and so is a node that does not exist. -/
def ofEdges (size : Nat) (edges : List (NodeId × NodeId)) (names : List String) (root : NodeId) :
    Graph :=
  let forward := Buckets.fill size Prod.fst Prod.snd edges
  let backward := Buckets.fill size Prod.snd Prod.fst edges
  let names := names.toArray
  { root := root
    size := size
    successors := fun n => forward.getD n []
    predecessors := fun n => backward.getD n []
    identity := fun n => (if n < size then names[n]? else none).getD ("n" ++ toString n) }

theorem successors_ofEdges {size n : Nat} (h : n < size) (edges : List (NodeId × NodeId))
    (names : List String) (root : NodeId) :
    (ofEdges size edges names root).successors n = (edges.filter (·.1 = n)).map Prod.snd :=
  Buckets.getD_fill h _ _ _

theorem predecessors_ofEdges {size n : Nat} (h : n < size) (edges : List (NodeId × NodeId))
    (names : List String) (root : NodeId) :
    (ofEdges size edges names root).predecessors n = (edges.filter (·.2 = n)).map Prod.fst :=
  Buckets.getD_fill h _ _ _

end Graph
end AdventureLogic
