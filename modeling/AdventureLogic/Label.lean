import AdventureLogic.Instruction
import AdventureLogic.OrderedMap

/-!
# Labels and listings

A label names an address that some instruction jumps to and lists the
instructions that do. Code that was read from bytes gets one label for each
target, numbered in address order. A listing is code together with its labels.

Key definitions: `Label`, `Label.numbered`, `LabelTable.ofInstructions`,
`Listing.text`.
-/

namespace AdventureLogic

/-- A named target of jumps. -/
structure Label where
  address : Address
  name : String
  /-- The addresses of the instructions that jump here. -/
  references : List Address := []
  deriving DecidableEq, Inhabited

/-- The name of the label with number `n`. -/
def Label.numbered (n : Int) : String := "Label" ++ toString n

/-- The labels of some code, by address. -/
abbrev LabelTable := OrderedMap Address Label

namespace LabelTable

/-- Every jump of the code, as the pair of its target and its own address. -/
def jumps (code : List Instruction) : List (Address × Address) :=
  code.filterMap fun i => i.target?.map fun t => (t, i.address)

/-- Pairs of addresses in lexicographic order. -/
def jumpLE (p q : Address × Address) : Bool :=
  p.1 < q.1 || (p.1 == q.1 && p.2 ≤ q.2)

/-- Adds the jump to the label of its target. A new target gets the next number. -/
def addJump (labels : LabelTable) (jump : Address × Address) : LabelTable :=
  let named := labels.insertIfNew jump.1 ⟨jump.1, Label.numbered (labels.size + 1 : Nat), []⟩
  named.modify jump.1 fun l => { l with references := l.references ++ [jump.2] }

/-- One label for each target of a jump, named in address order. -/
def ofInstructions (code : List Instruction) : LabelTable :=
  ((jumps code).mergeSort jumpLE).foldl addJump ∅

end LabelTable

/-- Linear code with its labels. -/
structure Listing where
  code : List Instruction
  labels : LabelTable

namespace Listing

/-- The label at an address. -/
def labelAt? (l : Listing) (a : Address) : Option Label := l.labels.get? a

/-- The lines of one instruction: its label, if it has one, and its text. -/
def instructionText (l : Listing) (i : Instruction) : String :=
  (l.labelAt? i.address).elim "" (fun label => label.name ++ ":\n") ++ "    " ++ i.text ++ "\n"

/-- The whole listing. -/
def text (l : Listing) : String := String.join (l.code.map l.instructionText)

end Listing
end AdventureLogic
