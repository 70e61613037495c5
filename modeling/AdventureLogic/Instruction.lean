import AdventureLogic.Address
import AdventureLogic.Opcode
import AdventureLogic.Text.Hex

/-!
# Instructions

Logic code is a list of instructions, each with an address: action commands,
conditions and gotos. A condition goes on to the next instruction if all of
its clauses hold and to its skip target otherwise. A clause is a test or a
group of alternatives; groups hold tests only, so they do not nest.

Key definitions: `Test`, `Clause`, `Command`, `Instruction`,
`Instruction.target?`, `Instruction.text`.
-/

namespace AdventureLogic

/-- A test command inside a condition. -/
structure Test where
  opcode : Opcode
  args : List UInt16
  negated : Bool := false
  deriving DecidableEq, Inhabited

/-- One of the parts of a condition that must all hold. -/
inductive Clause where
  /-- The test holds. -/
  | test (t : Test)
  /-- One of the tests holds. -/
  | anyOf (ts : List Test)
  deriving DecidableEq, Inhabited

/-- An action command, without an address. -/
structure Command where
  opcode : Opcode
  args : List UInt8
  deriving DecidableEq, Inhabited

/-- An instruction of linear code. -/
inductive Instruction where
  /-- Runs a command and goes on. -/
  | command (address : Address) (c : Command)
  /-- Goes on if the clauses hold, and to `skip` if they do not. -/
  | condition (address : Address) (clauses : List Clause) (skip : Option Address)
  /-- Goes to `target`. -/
  | goto (address target : Address)
  deriving DecidableEq, Inhabited

/-- The decimal texts of some numbers with `", "` between them. -/
def argumentsText (args : List Nat) : String := String.intercalate ", " (args.map toString)

namespace Test

/-- The test, negated if `n` says so. -/
def negate (t : Test) (n : Bool) : Test := { t with negated := n }

/-- A test as in `!isset(3)`. -/
def text (t : Test) : String :=
  (if t.negated then "!" else "") ++ t.opcode.testName ++ "("
    ++ argumentsText (t.args.map UInt16.toNat) ++ ")"

end Test

namespace Clause

/-- A clause as in `isset(3)` or `(isset(3) || has(2))`. -/
def text : Clause → String
  | .test t => t.text
  | .anyOf ts => "(" ++ String.intercalate " || " (ts.map Test.text) ++ ")"

/-- Clauses as in `isset(3) && has(2)`. -/
def allText (clauses : List Clause) : String := String.intercalate " && " (clauses.map text)

end Clause

namespace Command

/-- Whether the command ends the logic. -/
def isReturn (c : Command) : Bool := c.opcode == Opcode.ret

/-- The command that ends the logic. -/
def ret : Command := ⟨Opcode.ret, []⟩

end Command

namespace Instruction

/-- The address of an instruction. -/
def address : Instruction → Address
  | .command a _ => a
  | .condition a _ _ => a
  | .goto a _ => a

/-- The address other than the next one to which control may go. -/
def target? : Instruction → Option Address
  | .command _ _ => none
  | .condition _ _ skip => skip
  | .goto _ t => some t

/-- Sends the jump or the skip somewhere else. A command stays as it is. -/
def retarget (t : Address) : Instruction → Instruction
  | .command a c => .command a c
  | .condition a clauses _ => .condition a clauses (some t)
  | .goto a _ => .goto a t

/-- Whether the instruction is a goto. -/
def isGoto : Instruction → Bool
  | .goto _ _ => true
  | _ => false

/-- Whether the instruction is a condition. -/
def isCondition : Instruction → Bool
  | .condition _ _ _ => true
  | _ => false

/-- The command of an instruction, if it is one. -/
def command? : Instruction → Option Command
  | .command _ c => some c
  | _ => none

/-- Whether the instruction ends the logic. -/
def isReturn : Instruction → Bool
  | .command _ c => c.isReturn
  | _ => false

/-- Whether control can go on to the next instruction. -/
def fallsThrough : Instruction → Bool
  | .command _ c => !c.isReturn
  | .condition _ _ _ => true
  | .goto _ _ => false

/-- The text of an address. -/
def addressText (a : Address) : String := Text.hex 4 a.toNat

/-- An instruction as in `0003: if (isset(3)) else 0010`. -/
def text : Instruction → String
  | .command a c =>
    addressText a ++ ": " ++ c.opcode.actionName ++ "("
      ++ argumentsText (c.args.map UInt8.toNat) ++ ")"
  | .condition a clauses skip =>
    addressText a ++ ": if (" ++ Clause.allText clauses ++ ") else "
      ++ skip.elim "????" addressText
  | .goto a t => addressText a ++ ": goto " ++ addressText t

@[simp] theorem address_retarget (t : Address) (i : Instruction) :
    (i.retarget t).address = i.address := by
  cases i <;> rfl

end Instruction
end AdventureLogic
