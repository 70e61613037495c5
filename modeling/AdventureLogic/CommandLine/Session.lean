import AdventureLogic.CommandLine.FileTree
import AdventureLogic.CommandLine.LogLine
import AdventureLogic.CommandLine.Run

/-!
# Sessions

A run of the command line on a file tree in memory. The standard output, the
standard error and the tree are what a run leaves behind. The log shows the
command line's own lines from the level of information upwards.

Key definitions: `Session`, `Session.host`, `Session.run`.
-/

namespace AdventureLogic
namespace CommandLine

/-- What a run has done so far. -/
structure Session where
  tree : FileTree
  output : String := ""
  errors : String := ""
  deriving Inhabited

namespace Session

/-- Adds a text to the standard error. -/
def complain (s : Session) (text : String) : Session := { s with errors := s.errors ++ text }

/-- The lines of the standard error. -/
def errorLines (s : Session) : List String := Text.lines s.errors

/-- Replaces the tree by the outcome of a change, if it succeeded. -/
def change (f : FileTree → Except FileFault FileTree) : StateM Session (Except FileFault Unit) :=
  fun s =>
    match f s.tree with
    | .ok tree => (.ok (), { s with tree := tree })
    | .error fault => (.error fault, s)

/-- A system that consists of a session. -/
def host : Host (StateM Session) where
  read path := fun s => (s.tree.read path, s)
  write path content := change fun t => t.write path content
  makeDirectory path := change fun t => t.makeDirectory path
  isDirectory path := fun s => (s.tree.leadsToDirectory path, s)
  print text := modify fun s => { s with output := s.output ++ text }
  complain line := modify fun s => s.complain (line ++ "\n")
  log level message :=
    if level.rank ≤ Level.info.rank then modify fun s => s.complain (logText level message)
    else pure ()
  notice _ := pure ()

/-- Runs the command line on a tree. -/
def run (program : String) (args : List String) (tree : FileTree) : UInt32 × Session :=
  (CommandLine.run host program args).run { tree := tree }

end Session
end CommandLine
end AdventureLogic
