import AdventureLogic.Error

/-!
# File trees

The files and directories of a system, with a directory in which a program
works. Paths are followed name by name, each step from an existing directory; a
path that starts with a slash is followed from the top, any other from the
working directory. Names and paths have a greatest length.

Key definitions: `FileTree`, `locate`, `read`, `write`, `makeDirectory`.
-/

namespace AdventureLogic
namespace CommandLine

/-- A place in a file tree: the names that lead to it from the top. -/
abbrev Place := List String

/-- Files and directories. The top is always a directory, and so is the working directory. -/
structure FileTree where
  /-- The working directory. By default no path can spell it: its own name and that of the directory
  it stands in are empty. -/
  working : Place := ["", ""]
  directories : List Place := []
  files : List (Place × List UInt8) := []
  deriving DecidableEq, Inhabited

namespace FileTree

/-- The longest name, in bytes. -/
def nameLimit : Nat := 255

/-- The longest path, in bytes. -/
def pathLimit : Nat := 4095

/-- What every system has: the directories at its top, and a file that is always empty. -/
def system : FileTree where
  directories :=
    ["bin", "boot", "dev", "etc", "home", "lib", "media", "mnt", "opt", "proc", "root", "run",
      "sbin", "srv", "sys", "tmp", "usr", "var"].map fun name => [name]
  files := [(["dev", "null"], [])]

/-- Whether a directory stands at a place. -/
def isDirectory (t : FileTree) (place : Place) : Bool :=
  place.isPrefixOf t.working || t.directories.contains place

/-- The content of the file at a place. -/
def file? (t : FileTree) (place : Place) : Option (List UInt8) := t.files.lookup place

/-- Whether a file stands at a place. -/
def isFile (t : FileTree) (place : Place) : Bool := (t.file? place).isSome

/-- Where names lead from a place. -/
def walk (t : FileTree) (here : Place) : List String → Except FileFault Place
  | [] => .ok here
  | name :: rest =>
    if t.isDirectory here then
      if name = "" ∨ name = "." then walk t here rest
      else if name = ".." then walk t here.dropLast rest
      else if nameLimit < name.utf8ByteSize then .error .nameTooLong
      else walk t (here ++ [name]) rest
    else if t.isFile here then .error .notDirectory
    else .error .notFound

/-- Where a path leads that consists of the given names. -/
def locateNames (t : FileTree) (path : String) (names : List String) : Except FileFault Place :=
  if path = "" then .error .notFound
  else if pathLimit < path.utf8ByteSize then .error .nameTooLong
  else t.walk (if path.startsWith "/" then [] else t.working) names

/-- Where a path leads. -/
def locate (t : FileTree) (path : String) : Except FileFault Place :=
  t.locateNames path (path.splitOn "/")

/-- The content of a file. -/
def read (t : FileTree) (path : String) : Except FileFault (List UInt8) := do
  let place ← t.locate path
  match t.file? place with
  | some content => .ok content
  | none => .error (if t.isDirectory place then .isDirectory else .notFound)

/-- Puts a file at a place, new or instead of an old one. -/
def put (t : FileTree) (place : Place) (content : List UInt8) : FileTree :=
  if t.isFile place then
    { t with files := t.files.map fun f => if f.1 = place then (place, content) else f }
  else { t with files := t.files ++ [(place, content)] }

/-- Writes a file. -/
def write (t : FileTree) (path : String) (content : List UInt8) : Except FileFault FileTree := do
  let place ← t.locate path
  if t.isDirectory place then .error .isDirectory else .ok (t.put place content)

/-- Makes a directory at a place, unless there is one. -/
def addDirectory (t : FileTree) (place : Place) : FileTree :=
  if t.isDirectory place then t else { t with directories := t.directories ++ [place] }

/-- Names without the empty ones at their end. -/
def dropEmptyEnd (names : List String) : List String :=
  (names.reverse.dropWhile fun name => name = "").reverse

/-- Makes a directory inside an existing one. Slashes at the end of the path do not matter. -/
def makeDirectory (t : FileTree) (path : String) : Except FileFault FileTree := do
  let place ← t.locateNames path (dropEmptyEnd (path.splitOn "/"))
  if t.isDirectory place ∨ t.isFile place then .error .alreadyExists
  else .ok (t.addDirectory place)

/-- Whether a path leads to a directory. -/
def leadsToDirectory (t : FileTree) (path : String) : Bool :=
  match t.locate path with
  | .ok place => t.isDirectory place
  | .error _ => false

/-- Puts a file below the working directory, with the directories on the way to it. -/
def addFile (t : FileTree) (names : Place) (content : List UInt8) : FileTree :=
  let above := (List.range names.length).map fun n => t.working ++ names.take n
  (above.foldl addDirectory t).put (t.working ++ names) content

/-- The files below the working directory, with the names that lead to them from there. -/
def localFiles (t : FileTree) : List (Place × List UInt8) :=
  (t.files.filter fun f => t.working.isPrefixOf f.1).map fun f =>
    (f.1.drop t.working.length, f.2)

end FileTree
end CommandLine
end AdventureLogic
