import AdventureLogic.Compiler
import AdventureLogic.Text.Quoted

/-!
# Arguments of the command line

Arguments are taken in order. The first that cannot be understood, or that
asks for help, ends the reading.

Key definitions: `Arguments`, `Arguments.parse`, `usage`.
-/

namespace AdventureLogic
namespace CommandLine

/-- A graph that can be drawn beside the output. -/
inductive Drawing where
  | blocks
  | dominators
  | postDominators
  deriving DecidableEq, Inhabited

namespace Drawing

/-- The drawing of a name. -/
def ofName? (name : String) : Option Drawing :=
  if name = "cfg" then some .blocks
  else if name = "dom" then some .dominators
  else if name = "postdom" then some .postDominators
  else none

/-- What the name of a drawing's file ends in. -/
def suffix : Drawing → String
  | .blocks => ".cfg.dot"
  | .dominators => ".dom.dot"
  | .postDominators => ".postdom.dot"

/-- The text of a drawing. -/
def render (name : String) (g : BlockGraph) : Drawing → String
  | .blocks => g.toGraph.dot name
  | .dominators => g.dominators.dot name
  | .postDominators => g.postDominators.dot name

/-- What is reported on the way to a drawing. -/
def events (g : BlockGraph) : Drawing → List Event
  | .blocks => []
  | .dominators => [g.toGraph.dominatorsEvent]
  | .postDominators => [g.postDominatorsEvent]

end Drawing

/-- What the command line was asked to do. -/
structure Arguments where
  /-- The logic files, in order. -/
  inputs : List String := []
  /-- The directory that takes the output. -/
  directory : String := "."
  /-- The file with the options. -/
  options : Option String := none
  /-- The graphs to draw, in order. -/
  drawings : List Drawing := []
  /-- Whether to print the listing. -/
  listing : Bool := false
  deriving DecidableEq, Inhabited

/-- Why nothing is processed. -/
inductive Refusal where
  /-- Help was asked for. -/
  | help
  | unknownOption (option : String)
  | missingDirectory
  | missingFileName
  | missingGraph
  | unknownGraph (name : String)
  | noInputs
  deriving DecidableEq, Inhabited

/-- An option. -/
inductive Flag where
  | output
  | options
  | draw
  | listing
  | help
  deriving DecidableEq, Inhabited

namespace Flag

/-- The option of an argument. -/
def ofText? (text : String) : Option Flag :=
  if text = "-o" ∨ text = "--output" then some .output
  else if text = "--config" then some .options
  else if text = "--dot" then some .draw
  else if text = "-l" ∨ text = "--listing" then some .listing
  else if text = "-h" ∨ text = "--help" then some .help
  else none

end Flag

namespace Arguments

/-- Takes one argument after the other. -/
def parse (a : Arguments) : List String → Except Refusal Arguments
  | [] => if a.inputs.isEmpty then .error .noInputs else .ok a
  | arg :: rest =>
    match Flag.ofText? arg with
    | some .output =>
      match rest with
      | [] => .error .missingDirectory
      | directory :: rest => parse { a with directory := directory } rest
    | some .options =>
      match rest with
      | [] => .error .missingFileName
      | path :: rest => parse { a with options := some path } rest
    | some .draw =>
      match rest with
      | [] => .error .missingGraph
      | name :: rest =>
        match Drawing.ofName? name with
        | none => .error (.unknownGraph name)
        | some d => parse { a with drawings := a.drawings ++ [d] } rest
    | some .listing => parse { a with listing := true } rest
    | some .help => .error .help
    | none =>
      if arg.startsWith "-" then .error (.unknownOption arg)
      else parse { a with inputs := a.inputs ++ [arg] } rest

end Arguments

/-- The variable of the environment that says how much is logged. -/
def logVariable : String := "RUST_LOG"

/-- How the command line is used. -/
def usage (program : String) : String :=
  String.join <| List.map (· ++ "\n")
    ["Usage: " ++ program ++ " [options] <logic files...>",
      "",
      "Options:",
      "  -o, --output <dir>           Output directory (default: .)",
      "  --config <file>              TOML compiler options",
      "  --dot <cfg|dom|postdom>      Also write a Graphviz graph (repeatable)",
      "  -l, --listing                Print the recompiled listing",
      "  -h, --help                   Show this help message",
      "",
      "Set " ++ logVariable ++ "=debug for pass-by-pass detail."]

namespace Refusal

/-- The exit code of a refusal. -/
def exitCode : Refusal → UInt32
  | .help => 0
  | _ => 1

/-- The line of a refusal on the standard error, if it has one. -/
def complaint? : Refusal → Option String
  | .help => none
  | .unknownOption option => some s!"Error: Unknown option '{option}'"
  | .missingDirectory => some ("Error: " ++ Text.quoted "-o requires a directory")
  | .missingFileName => some ("Error: " ++ Text.quoted "--config requires a filename")
  | .missingGraph => some ("Error: " ++ Text.quoted "--dot requires one of cfg, dom or postdom")
  | .unknownGraph name => some ("Error: " ++ Text.quoted s!"Unknown graph '{name}' for --dot")
  | .noInputs => some ("Error: " ++ Text.quoted "No input files specified")

/-- Whether a refusal shows how the command line is used. -/
def showsUsage : Refusal → Bool
  | .help => true
  | .unknownOption _ => true
  | _ => false

end Refusal
end CommandLine
end AdventureLogic
