import AdventureLogic.BlockGraph.Basic

/-!
# Editing a block graph

Blocks and edges are added and changed one call at a time, with questions about
the edges in between. From where control can come to a block takes a look at
all blocks; the table that answers this for every block is made when it is
first asked for and kept until a block or an edge changes. A call that fails
leaves everything as it was.

Key definitions: `Editor`, `Editor.Call`, `Editor.perform`, `Editor.run`.
-/

namespace AdventureLogic

/-- For each block from where control can come to it. -/
def BlockGraph.predecessorTable (g : BlockGraph) : Array (List BlockId) :=
  listings g.size g.numberedSuccessors

/-- A block graph that is being edited. -/
structure Editor where
  graph : BlockGraph := .empty
  /-- The table of predecessors, if it is known. -/
  table? : Option (Array (List BlockId)) := none
  deriving DecidableEq, Inhabited

namespace Editor

/-- What can be asked of an editor. -/
inductive Call where
  | addBlock (b : Block)
  | replaceBlock (n : BlockId) (b : Block)
  | addEdge (m n : BlockId)
  | setRoot (n : BlockId)
  /-- Where control can go from a block. -/
  | successors (n : BlockId)
  /-- From where control can come to a block. -/
  | predecessors (n : BlockId)
  deriving DecidableEq, Inhabited

/-- What an editor answers. -/
inductive Answer where
  | done
  /-- The number of the block that was added. -/
  | number (n : BlockId)
  | blocks (ns : List BlockId)
  | fault (e : Error)
  deriving DecidableEq, Inhabited

/-- The table of predecessors, made if it is not known. -/
def table (s : Editor) : Array (List BlockId) := s.table?.getD s.graph.predecessorTable

/-- Takes a change over, if it could be made. -/
def change (s : Editor) : Except Error BlockGraph → Answer × Editor
  | .ok g => (.done, { graph := g })
  | .error e => (.fault e, s)

/-- Performs a call. -/
def perform (s : Editor) : Call → Answer × Editor
  | .addBlock b => (.number s.graph.size, { graph := s.graph.addBlock b })
  | .replaceBlock n b => s.change (s.graph.replaceBlock n b)
  | .addEdge m n => s.change (s.graph.addEdge m n)
  | .setRoot n => (.done, { s with graph := s.graph.setRoot n })
  | .successors n => (.blocks (s.graph.successors n), s)
  | .predecessors n => (.blocks (s.table.getD n []), { s with table? := some s.table })

/-- The state after a sequence of calls. -/
def run (s : Editor) (calls : List Call) : Editor := calls.foldl (fun s c => (s.perform c).2) s

end Editor
end AdventureLogic
