import AdventureLogic.CommandLine.LogLine
import AdventureLogic.CommandLine.Run

/-!
# The program

The command line on the file system it is started in.
-/

namespace AdventureLogic
namespace CommandLine

/-- The fault behind an error of the system. -/
def faultOf : IO.Error → FileFault
  | .noFileOrDirectory _ _ _ => .notFound
  | .alreadyExists _ _ _ => .alreadyExists
  | .inappropriateType _ code details => ofCode code details
  | .invalidArgument _ code details => ofCode code details
  | e => .other (toString e)
where
  /-- The fault of a code, which some calls report with its sign turned. -/
  ofCode (code : UInt32) (details : String) : FileFault :=
    if code = 20 ∨ code = 0 - 20 then .notDirectory
    else if code = 21 ∨ code = 0 - 21 then .isDirectory
    else if code = 36 ∨ code = 0 - 36 then .nameTooLong
    else .other details

/-- Runs an action on files and returns its fault, if it has one. -/
def attempt {α : Type} (action : IO α) : IO (Except FileFault α) := do
  try
    return .ok (← action)
  catch e =>
    return .error (faultOf e)

/-- Whether a path leads to a directory. -/
def isDirectory (path : String) : IO Bool := do
  try
    (← IO.FS.realPath path).isDir
  catch _ =>
    return false

/-- The rank up to which events are shown. -/
def shownRank : Option String → Nat
  | none => Level.error.rank
  | some name =>
    let levels := [Level.error, .warn, .info, .debug, .trace]
    match levels.find? fun l => l.name = name.toUpper with
    | some level => level.rank
    | none => Level.error.rank

/-- The system that the program runs on. -/
def systemHost (shown : Nat) : Host IO where
  read path := attempt do return (← IO.FS.readBinFile path).data.toList
  write path content := attempt (IO.FS.writeBinFile path ⟨content.toArray⟩)
  makeDirectory path := attempt (IO.FS.createDir path)
  isDirectory := isDirectory
  print := IO.print
  complain := IO.eprintln
  log level message :=
    if level.rank ≤ shown then IO.eprint (logText level message) else pure ()
  notice e := if e.level.rank ≤ shown then IO.eprint (logText e.level e.message) else pure ()

end CommandLine
end AdventureLogic

/-- Runs the command line. -/
def main (args : List String) : IO UInt32 := do
  let level ← IO.getEnv AdventureLogic.CommandLine.logVariable
  let host := AdventureLogic.CommandLine.systemHost (AdventureLogic.CommandLine.shownRank level)
  AdventureLogic.CommandLine.run host "logic-recompile" args
