import AdventureLogic.CommandLine.Arguments
import AdventureLogic.CommandLine.Path
import AdventureLogic.Options.File

/-!
# Running the command line

Each logic file is taken apart and put together again, and the outcome is
written beside the drawings that were asked for. A file that fails is reported
and the next one is processed. What the system offers is a parameter, `Host`,
so that a run is the same on a real file system and on a tree in memory.

Key definitions: `Host`, `makeDirectories`, `processFile`, `run`.
-/

namespace AdventureLogic
namespace CommandLine

/-- What a run needs from the system. -/
structure Host (m : Type → Type) where
  /-- The content of a file. -/
  read : String → m (Except FileFault (List UInt8))
  /-- Writes a file. -/
  write : String → List UInt8 → m (Except FileFault Unit)
  /-- Makes a directory inside an existing one. -/
  makeDirectory : String → m (Except FileFault Unit)
  /-- Whether a path leads to a directory. -/
  isDirectory : String → m Bool
  /-- Writes to the standard output. -/
  print : String → m Unit
  /-- Writes a line to the standard error. -/
  complain : String → m Unit
  /-- Writes a line of the command line's own to the log. -/
  log : Level → String → m Unit
  /-- Takes notice of what the compiler reports. -/
  notice : Event → m Unit

/-- A fault with its cause, as the last line of a run. -/
def faultText : Error → String
  | .file fault => "IoError(" ++ Text.quoted fault.message ++ ")"
  | .invalidOptions => "InvalidConfig"
  | e => e.message

/-- A fault of the output directory, as the last line of a run. -/
def directoryFaultText (fault : FileFault) : String :=
  match fault.system? with
  | some (code, kind, text) =>
    s!"Os \x7b code: {code}, kind: {kind}, message: " ++ Text.quoted text ++ " \x7d"
  | none => fault.message

section

variable {m : Type → Type} [Monad m] (host : Host m)

/-- Passes a computation's events on and returns its result. -/
def observe {α : Type} (x : Logged α) : m (Except Error α) := do
  x.events.forM host.notice
  return x.result

/-- A fault ends the processing of a file. -/
def orStop {α : Type} (x : Except String α) : ExceptT String m α := ExceptT.mk (pure x)

/-- Makes a directory unless there is one. -/
def ensureDirectory (path : String) : m (Except FileFault Unit) := do
  match ← host.makeDirectory path with
  | .ok () => return .ok ()
  | .error fault => return if ← host.isDirectory path then .ok () else .error fault

/-- Makes the first of some directories. If there is nothing to put it into, those after it are made
first. -/
def ensureDirectories : List String → m (Except FileFault Unit)
  | [] => return .ok ()
  | path :: above => do
    match ← ensureDirectory host path with
    | .error .notFound =>
      match ← ensureDirectories above with
      | .ok () => ensureDirectory host path
      | .error fault => return .error fault
    | outcome => return outcome

/-- Makes a directory and those on the way to it, as far as they are missing. The empty path is the
working directory, which is never missing. -/
def makeDirectories (path : String) : m (Except FileFault Unit) :=
  ensureDirectories host (if path = "" then [] else path :: Path.above path)

/-- The options of a run. -/
def readOptions : Option String → m (Except Error Options)
  | none => return .ok {}
  | some path => do
    let content ← host.read path
    observe host (Options.load path content)

/-- Writes a drawing of a block graph. -/
def draw (a : Arguments) (name : String) (g : BlockGraph) (d : Drawing) :
    ExceptT String m Unit := do
  (d.events g).forM fun e => host.notice e
  let text := d.render name g
  let written ← host.write (Path.join a.directory (name ++ d.suffix)) text.toUTF8.data.toList
  orStop (written.mapError FileFault.message)

/-- Processes one logic file. A fault is returned as the words that report it. -/
def processFile (options : Options) (a : Arguments) (input : String) :
    ExceptT String m Unit := do
  let content ← host.read input
  let code ← orStop (content.mapError FileFault.message)
  let outcome ← observe host (roundTrip options code)
  let trip ← orStop (outcome.mapError Error.message)
  let name := ((Path.fileName? input).map Path.stem).getD "logic"
  let output := Path.join a.directory (name ++ ".out")
  let written ← host.write output trip.code
  orStop (written.mapError FileFault.message)
  host.log .info s!"{input}: {code.length} -> {trip.code.length} bytes in {output}"
  a.drawings.forM fun d => draw host a name trip.graph d
  if a.listing then
    host.print (input ++ ":\n" ++ trip.listing.text)

/-- Processes logic files one after the other and counts those that fail. -/
def processAll (options : Options) (a : Arguments) : List String → m Nat
  | [] => return 0
  | input :: rest => do
    match ← (processFile host options a input).run with
    | .ok () => processAll options a rest
    | .error reason =>
      host.log .error s!"{input}: {reason}"
      return (← processAll options a rest) + 1

/-- Does what the arguments ask for. -/
def execute (a : Arguments) : m UInt32 := do
  match ← readOptions host a.options with
  | .error e =>
    host.complain ("Error: " ++ faultText e)
    return 1
  | .ok options =>
    match ← makeDirectories host a.directory with
    | .error fault =>
      host.complain ("Error: " ++ directoryFaultText fault)
      return 1
    | .ok () =>
      let failures ← processAll host options a a.inputs
      host.log .info s!"processed {a.inputs.length} resources, {failures} failed"
      return if failures = 0 then 0 else 1

/-- Runs the command line and returns its exit code. -/
def run (program : String) (args : List String) : m UInt32 := do
  if args.isEmpty then
    host.print (usage program)
    return 1
  match Arguments.parse {} args with
  | .ok a => execute host a
  | .error refusal =>
    refusal.complaint?.forM host.complain
    if refusal.showsUsage then host.print (usage program)
    return refusal.exitCode

end

end CommandLine
end AdventureLogic
