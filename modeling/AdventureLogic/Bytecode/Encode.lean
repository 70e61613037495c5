import AdventureLogic.Bytecode.Word
import AdventureLogic.Error
import AdventureLogic.Instruction

/-!
# Writing single instructions

The bytes of tests, clauses and instructions. The distance of a jump is not
known yet, so its two bytes are written as zeros.

    command    opcode, arguments
    goto       FE, distance
    condition  FF, clauses, FF, distance
    test       FD if negated, opcode, arguments
               FD if negated, opcode, count, words    (variable arity)
    group      FC, tests, FC
-/

namespace AdventureLogic
namespace Bytecode

variable (set : CommandSet)

/-- The bytes of a test. Fails if there are more words than a byte can count, or if an argument
that has to be a byte is none. -/
def encodeTest (t : Test) : Except Error (List UInt8) :=
  let head := (if t.negated then [Opcode.notMarker] else []) ++ [t.opcode]
  match set.testArity? t.opcode with
  | some .counted =>
    if t.args.length ≤ 255 then
      .ok (head ++ UInt8.ofNat t.args.length :: t.args.flatMap Word.bytes)
    else .error (.argumentOutOfRange t.opcode (min t.args.length 65535))
  | _ =>
    match t.args.find? fun v => 255 < v.toNat with
    | some v => .error (.argumentOutOfRange t.opcode v.toNat)
    | none => .ok (head ++ t.args.map UInt16.toUInt8)

/-- The bytes of a clause. -/
def encodeClause : Clause → Except Error (List UInt8)
  | .test t => encodeTest set t
  | .anyOf ts => do
    let tests ← ts.mapM (encodeTest set)
    return Opcode.orMarker :: tests.flatten ++ [Opcode.orMarker]

/-- The bytes of an instruction, with zeros for the distance of a jump. -/
def encodeInstruction : Instruction → Except Error (List UInt8)
  | .command _ c => .ok (c.opcode :: c.args)
  | .goto _ _ => .ok [Opcode.gotoMarker, 0, 0]
  | .condition a _ none => .error (.unresolvedSkip a)
  | .condition _ clauses (some _) => do
    let bytes ← clauses.mapM (encodeClause set)
    return Opcode.conditionMarker :: bytes.flatten ++ [Opcode.conditionMarker, 0, 0]

end Bytecode
end AdventureLogic
