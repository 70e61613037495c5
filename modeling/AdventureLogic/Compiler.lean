import AdventureLogic.BlockGraph.Discovery
import AdventureLogic.Bytecode.Assemble
import AdventureLogic.Bytecode.Decode
import AdventureLogic.Layout.Recompile
import AdventureLogic.Options.Basic

/-!
# The compiler

Logic bytecode is taken apart into a block graph, and a block graph is put
together as bytecode again. A round trip does both.

Key definitions: `decompile`, `roundTrip`.
-/

namespace AdventureLogic

/-- The listing of a code. -/
def disassemble (options : Options) (code : List UInt8) : Logged Listing := do
  let instructions ← Bytecode.decode options.commandSet code
  return ⟨instructions, LabelTable.ofInstructions instructions⟩

/-- The block graph of a code. -/
def decompile (options : Options) (code : List UInt8) : Logged BlockGraph := do
  let listing ← disassemble options code
  BlockGraph.ofInstructions listing.code listing.labels

/-- What arises on a round trip. -/
structure RoundTrip where
  graph : BlockGraph
  listing : Listing
  code : List UInt8

/-- Takes a code apart and puts it together again. -/
def roundTrip (options : Options) (code : List UInt8) : Logged RoundTrip := do
  let graph ← decompile options code
  let listing ← graph.recompile options.selfContained
  let assembled ← Bytecode.assemble options.commandSet listing.code
  Logged.report (.roundTrip code.length graph.size assembled.length)
  return ⟨graph, listing, assembled⟩

end AdventureLogic
