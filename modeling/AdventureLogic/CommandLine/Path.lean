/-!
# Paths

The parts of a path that the command line looks at. Names are set apart by
slashes; empty names and single dots say nothing.
-/

namespace AdventureLogic
namespace CommandLine
namespace Path

/-- The path of a name inside a directory. -/
def join (directory name : String) : String :=
  if directory = "" ∨ directory.endsWith "/" then directory ++ name
  else directory ++ "/" ++ name

/-- The names of a path that say something. -/
def names (path : String) : List String := (path.splitOn "/").filter fun n => n ≠ "" ∧ n ≠ "."

/-- The last name of a path, unless it leads upwards or there is none. -/
def fileName? (path : String) : Option String := (names path).getLast?.filter fun n => n ≠ ".."

/-- The paths that lead to a part of the names of a path, the longest first. A dot at the end of the
path is no name, so `a/.` has none above it: `a` itself is not one of them. -/
def above (path : String) : List String :=
  let top := if path.startsWith "/" then "/" else ""
  let lengths := ((List.range (names path).length).drop 1).reverse
  lengths.map fun n => top ++ "/".intercalate ((names path).take n)

/-- A name up to its last dot. A dot at the front of the name is no such dot. -/
def stem (name : String) : String :=
  match name.toList.reverse.dropWhile fun c => c ≠ '.' with
  | '.' :: c :: before => String.ofList (c :: before).reverse
  | _ => name

end Path
end CommandLine
end AdventureLogic
