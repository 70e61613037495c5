import AdventureLogic.Graph.Walk

/-!
# Drawing graphs

Graphs are drawn as DOT text: first the nodes, then the edges. Texts stand in
double quotes, so quotes and backslashes in them are escaped; a line break ends
a line that is set flush left.

Key definitions: `Dot.escape`, `Graph.dot`.
-/

namespace AdventureLogic
namespace Dot

/-- A character inside a quoted text. -/
def escapeChar : Char → String
  | '\\' => "\\\\"
  | '"' => "\\\""
  | '\n' => "\\l"
  | c => String.singleton c

/-- A text inside double quotes. -/
def escape (text : String) : String := String.join (text.toList.map escapeChar)

/-- A text in double quotes. -/
def quoted (text : String) : String := "\"" ++ escape text ++ "\""

/-- The line of a node. -/
def nodeLine (n : Nat) (label : String) : String :=
  "  n" ++ toString n ++ " [label=" ++ quoted label ++ "];\n"

/-- The line of an edge. -/
def edgeLine (m n : Nat) (label : Option String) : String :=
  "  n" ++ toString m ++ " -> n" ++ toString n
    ++ label.elim "" (fun text => " [label=" ++ quoted text ++ "]") ++ ";\n"

/-- A drawing with the given lines of nodes and edges. -/
def drawing (name : String) (nodes edges : List String) : String :=
  "digraph " ++ quoted name ++ " \x7b\n  node [shape=box, fontname=monospace];\n"
    ++ String.join nodes ++ String.join edges ++ "\x7d\n"

end Dot

namespace Graph

/-- The drawing of the nodes that can be reached from the root and of the edges from them. -/
def dot (g : Graph) (name : String) : String :=
  let reached := g.preorder
  Dot.drawing name
    (reached.map fun n => Dot.nodeLine n (g.label n))
    (reached.flatMap fun m => (g.successors m).map fun n => Dot.edgeLine m n (g.edgeLabel m n))

end Graph
end AdventureLogic
