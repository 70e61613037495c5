import AdventureLogic.Opcode

/-!
# Options

What can be configured about taking code apart and putting it together.
-/

namespace AdventureLogic

/-- What can be configured. -/
structure Options where
  /-- Whether conditions are made self-contained. -/
  selfContained : Bool := true
  /-- The tests of variable arity. -/
  variableTests : List Opcode := [Opcode.said]
  deriving DecidableEq, Inhabited

namespace Options

/-- What reading and writing code have to know about commands. -/
def commandSet (options : Options) : CommandSet := ⟨options.variableTests⟩

end Options
end AdventureLogic
