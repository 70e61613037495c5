import AdventureLogic.Address
import AdventureLogic.Opcode
import AdventureLogic.Text.Hex

/-!
# What can go wrong

Every fault that reading, analysing, laying out or writing code can report,
as a cause. The wording stands in one place, `Error.message`.
-/

namespace AdventureLogic

/-- Why the clauses of a condition cannot be read. -/
inductive ConditionFault where
  /-- The condition ends inside a group of alternatives. -/
  | unterminatedGroup
  /-- The condition ends after a negation. -/
  | danglingNegation
  /-- A negation stands before a group. -/
  | negatedGroup
  /-- A group holds no test. -/
  | emptyGroup
  deriving DecidableEq, Inhabited

/-- Why a file cannot be read or written. -/
inductive FileFault where
  | notFound
  | alreadyExists
  | notDirectory
  | isDirectory
  | nameTooLong
  | invalidText
  /-- Any other fault, in the words of the system. -/
  | other (text : String)
  deriving DecidableEq, Inhabited

/-- A fault. -/
inductive Error where
  /-- No such node. -/
  | unknownNode (name : String)
  /-- The address is taken. -/
  | conflictingAddress (address : Address)
  /-- The block is empty and leads nowhere, or only round in a circle. -/
  | unresolvedExit (block : String)
  /-- The jump leads to no instruction. -/
  | danglingTarget (source target : Address)
  /-- The branches of the conditional block never meet. -/
  | missingMerge (block : String)
  /-- The condition has no skip target. -/
  | unresolvedSkip (address : Address)
  /-- The code ends inside an instruction, or where one has to follow. -/
  | unexpectedEnd (offset : Nat)
  /-- The clauses of a condition are malformed. -/
  | invalidCondition (fault : ConditionFault) (offset : Nat)
  /-- The opcode is not known. -/
  | unknownOpcode (opcode : Opcode) (offset : Nat)
  /-- The jump leads out of the code. -/
  | jumpOutsideCode (source : Nat) (target : Int)
  /-- The argument, or the number of arguments, is more than a byte holds. -/
  | argumentOutOfRange (opcode : Opcode) (value : Nat)
  /-- The distance of the jump is more than a signed word holds. -/
  | jumpOutOfRange (source : Address) (distance : Int)
  /-- The options cannot be understood. -/
  | invalidOptions
  /-- A file cannot be used. -/
  | file (fault : FileFault)
  deriving DecidableEq, Inhabited

namespace ConditionFault

/-- The wording of a malformed condition. -/
def message : ConditionFault → String
  | .unterminatedGroup => "unterminated OR group"
  | .danglingNegation => "negation without a test"
  | .negatedGroup => "negated OR group"
  | .emptyGroup => "empty OR group"

end ConditionFault

namespace FileFault

/-- The code, kind and wording that the system gives a fault, if it is one of the system's. -/
def system? : FileFault → Option (Nat × String × String)
  | .notFound => some (2, "NotFound", "No such file or directory")
  | .alreadyExists => some (17, "AlreadyExists", "File exists")
  | .notDirectory => some (20, "NotADirectory", "Not a directory")
  | .isDirectory => some (21, "IsADirectory", "Is a directory")
  | .nameTooLong => some (36, "InvalidFilename", "File name too long")
  | .invalidText => none
  | .other _ => none

/-- The wording of a file fault. -/
def message (fault : FileFault) : String :=
  match fault.system?, fault with
  | some (code, _, text), _ => s!"{text} (os error {code})"
  | none, .other text => text
  | none, _ => "stream did not contain valid UTF-8"

end FileFault

namespace Error

/-- A byte offset as in `0x0010`. -/
def offsetText (offset : Nat) : String := "0x" ++ Text.hex 4 offset

/-- An opcode as in `0x0e`. -/
def opcodeText (op : Opcode) : String := "0x" ++ Text.hex 2 op.toNat

/-- The wording of a fault. -/
def message : Error → String
  | .unknownNode name => "Node not in graph: " ++ name
  | .conflictingAddress a => "Conflicting instruction at address " ++ toString a.toNat
  | .unresolvedExit block => "Block " ++ block ++ " has no instructions and no exit to follow"
  | .danglingTarget source target =>
    "Instruction " ++ toString source.toNat ++ " jumps to unknown address "
      ++ toString target.toNat
  | .missingMerge block => "No merge point found for conditional block " ++ block
  | .unresolvedSkip a => "Condition at address " ++ toString a.toNat ++ " has no skip target"
  | .unexpectedEnd offset => "Unexpected end of code at byte " ++ offsetText offset
  | .invalidCondition fault offset =>
    "Invalid condition at byte " ++ offsetText offset ++ ": " ++ fault.message
  | .unknownOpcode op offset =>
    "Unknown opcode " ++ opcodeText op ++ " at byte " ++ offsetText offset
  | .jumpOutsideCode source target =>
    "Jump at byte " ++ offsetText source ++ " leaves the code (target " ++ toString target ++ ")"
  | .argumentOutOfRange op value =>
    "Argument " ++ toString value ++ " of opcode " ++ opcodeText op ++ " does not fit in a byte"
  | .jumpOutOfRange source distance =>
    "Jump offset " ++ toString distance ++ " from instruction " ++ toString source.toNat
      ++ " does not fit in 16 bits"
  | .invalidOptions => "Invalid configuration"
  | .file fault => "IO error: " ++ fault.message

end Error
end AdventureLogic
