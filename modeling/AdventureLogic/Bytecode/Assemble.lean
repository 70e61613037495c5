import AdventureLogic.Bytecode.Encode
import AdventureLogic.Event
import AdventureLogic.OrderedMap

/-!
# Writing code

Code is written into a buffer in two steps. First the bytes of every
instruction are put behind those of the instruction before it; where they stand
is noted by address, and a jump is kept in mind, since its target may still be
to come. Then the distance of each jump is written over the last two bytes of
its instruction, counted from the end of the jumping instruction to the start
of its target.

Key definitions: `Placement`, `Draft`, `Draft.add`, `Draft.patch`, `layout`,
`assemble`.
-/

namespace AdventureLogic
namespace Bytecode

/-- Where the bytes of an instruction stand. -/
structure Placement where
  offset : Nat
  length : Nat
  deriving DecidableEq, Inhabited

namespace Placement

/-- Where the bytes end. -/
def finish (p : Placement) : Nat := p.offset + p.length

/-- The distance from the end of the bytes to the start of others. -/
def distanceTo (p q : Placement) : Int := (q.offset : Int) - p.finish

end Placement

/-- A jump whose distance has not been written. -/
structure PendingJump where
  source : Address
  target : Address
  deriving DecidableEq, Inhabited

/-- Code that is being written. -/
structure Draft where
  bytes : Array UInt8 := #[]
  /-- Where each instruction stands, by its address. -/
  placements : OrderedMap Address Placement := ∅
  /-- The jumps in the order of the code. -/
  jumps : Array PendingJump := #[]

namespace Draft

variable (set : CommandSet)

/-- Puts an instruction at the end. -/
def add (d : Draft) (i : Instruction) : Logged Draft := do
  let bytes ← encodeInstruction set i
  let placement : Placement := ⟨d.bytes.size, bytes.length⟩
  Logged.report (.placed placement.offset i placement.length)
  if d.placements.contains i.address then
    throw (.conflictingAddress i.address)
  else
    return {
      bytes := d.bytes ++ bytes
      placements := d.placements.insert i.address placement
      jumps := i.target?.elim d.jumps fun target => d.jumps.push ⟨i.address, target⟩ }

/-- The draft of a code. -/
def ofCode (code : List Instruction) : Logged Draft := code.foldlM (add set) {}

/-- Writes bytes over those from `offset` on. -/
def overwrite (bytes : Array UInt8) (offset : Nat) : List UInt8 → Array UInt8
  | [] => bytes
  | b :: rest => overwrite (bytes.setIfInBounds offset b) (offset + 1) rest

/-- Writes the distance of a jump over the last two bytes of its instruction. -/
def patch (d : Draft) (j : PendingJump) : Logged Draft :=
  match d.placements.get? j.source with
  | none => throw (.unknownNode ("instruction " ++ toString j.source))
  | some source =>
    match d.placements.get? j.target with
    | none => throw (.danglingTarget j.source j.target)
    | some target =>
      let distance := source.distanceTo target
      if Word.Fits distance then do
        Logged.report (.patched source.offset target.offset distance)
        let word := Word.bytes (Word.ofSigned distance)
        return { d with bytes := overwrite d.bytes (source.finish - 2) word }
      else throw (.jumpOutOfRange j.source distance)

end Draft

variable (set : CommandSet)

/-- Where the instructions of a code stand, by their addresses. -/
def layout (code : List Instruction) : Logged (OrderedMap Address Placement) :=
  (Draft.ofCode set code).map Draft.placements

/-- The bytes of a code. -/
def assemble (code : List Instruction) : Logged (List UInt8) := do
  let draft ← Draft.ofCode set code
  let written ← draft.jumps.toList.foldlM Draft.patch draft
  Logged.report (.assembled code.length written.bytes.size)
  return written.bytes.toList

end Bytecode
end AdventureLogic
