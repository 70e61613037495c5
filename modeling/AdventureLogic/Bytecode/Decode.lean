import AdventureLogic.Bytecode.Cursor
import AdventureLogic.Event

/-!
# Reading code

Turns bytes into instructions whose addresses are byte offsets. Jump distances
count from the end of the jumping instruction and are resolved here.

A condition is a run of tests, negations and groups between two condition
markers. The reader of its clauses keeps two things in mind: the group it is
in, with the offset where the group was opened, and whether a negation is
pending. Bytes of arguments are never taken for markers.

Key definitions: `readTest`, `readClauses`, `readInstruction`, `decode`.
-/

namespace AdventureLogic
namespace Bytecode

variable (set : CommandSet)

/-- Reads the arguments of a test whose opcode stood at `offset`. -/
def readTest (op : Opcode) (offset : Nat) (c : Cursor) : Except Error (Test × Cursor) :=
  match set.testArity? op with
  | none => .error (.unknownOpcode op offset)
  | some (.fixed count) => do
    let (bs, c) ← c.bytes count
    return (⟨op, bs.map UInt8.toUInt16, false⟩, c)
  | some .counted => do
    let (count, c) ← c.byte
    let (ws, c) ← c.words count.toNat
    return (⟨op, ws, false⟩, c)

theorem length_readTest {op : Opcode} {offset : Nat} {c d : Cursor} {t : Test}
    (h : readTest set op offset c = .ok (t, d)) : d.rest.length ≤ c.rest.length := by
  unfold readTest at h
  split at h
  · cases h
  · obtain ⟨⟨bs, c1⟩, h1, h⟩ := Result.bind_eq_ok.1 h
    cases h
    have := Cursor.length_bytes h1
    omega
  · obtain ⟨⟨count, c1⟩, h1, h⟩ := Result.bind_eq_ok.1 h
    obtain ⟨⟨ws, c2⟩, h2, h⟩ := Result.bind_eq_ok.1 h
    cases h
    have := Cursor.length_byte h1
    have := Cursor.length_words h2
    omega

/-- A group of alternatives that is being read: where it was opened, and its tests so far, the last
one first. -/
structure OpenGroup where
  opened : Nat
  tests : List Test := []
  deriving DecidableEq, Inhabited

/-- Adds a test to a group. -/
def OpenGroup.add (g : OpenGroup) (t : Test) : OpenGroup := { g with tests := t :: g.tests }

/-- Reads clauses up to the marker that closes the condition. -/
def readClauses (group : Option OpenGroup) (negated : Bool) (c : Cursor) :
    Except Error (List Clause × Cursor) :=
  match _hb : c.byte with
  | .error e => .error e
  | .ok (b, next) =>
    if b = Opcode.conditionMarker then
      if group.isSome then .error (.invalidCondition .unterminatedGroup c.offset)
      else if negated then .error (.invalidCondition .danglingNegation c.offset)
      else .ok ([], next)
    else if b = Opcode.orMarker then
      if negated then .error (.invalidCondition .negatedGroup c.offset)
      else
        match group with
        | none => readClauses (some ⟨c.offset, []⟩) false next
        | some g =>
          if g.tests.isEmpty then .error (.invalidCondition .emptyGroup g.opened)
          else (readClauses none false next).map fun r => (.anyOf g.tests.reverse :: r.1, r.2)
    else if b = Opcode.notMarker then readClauses group (!negated) next
    else
      match _ht : readTest set b c.offset next with
      | .error e => .error e
      | .ok (t, after) =>
        match group with
        | none => (readClauses none false after).map fun r => (.test (t.negate negated) :: r.1, r.2)
        | some g => readClauses (some (g.add (t.negate negated))) false after
termination_by c.rest.length
decreasing_by
  all_goals
    have := Cursor.length_byte _hb
    first
    | omega
    | have := length_readTest set _ht
      omega

theorem length_readClauses {group : Option OpenGroup} {negated : Bool} {c d : Cursor}
    {clauses : List Clause} (h : readClauses set group negated c = .ok (clauses, d)) :
    d.rest.length < c.rest.length := by
  fun_induction readClauses set group negated c generalizing clauses d with
  | case1 | case2 | case3 | case5 | case7 | case10 => cases h
  | case4 _ _ _ _ _ _ hb =>
    cases h
    have := Cursor.length_byte hb
    omega
  | case6 _ _ _ _ hb _ ih =>
    have := Cursor.length_byte hb
    have := ih h
    omega
  | case8 _ _ _ _ _ _ hb _ ih =>
    obtain ⟨r, hr, h⟩ := Result.map_eq_ok.1 h
    cases h
    have := Cursor.length_byte hb
    have := ih hr
    omega
  | case9 _ _ _ _ hb _ _ ih =>
    have := Cursor.length_byte hb
    have := ih h
    omega
  | case11 _ _ _ _ hb _ _ _ _ _ ht ih =>
    obtain ⟨r, hr, h⟩ := Result.map_eq_ok.1 h
    cases h
    have := Cursor.length_byte hb
    have := length_readTest set ht
    have := ih hr
    omega
  | case12 _ _ _ _ hb _ _ _ _ _ ht _ ih =>
    have := Cursor.length_byte hb
    have := length_readTest set ht
    have := ih h
    omega

/-- Reads one instruction of a code of `size` bytes. -/
def readInstruction (size : Nat) (c : Cursor) : Except Error (Instruction × Cursor) := do
  let (b, next) ← c.byte
  let address := UInt32.ofNat c.offset
  if b = Opcode.conditionMarker then
    let (clauses, next) ← readClauses set none false next
    let (skip, next) ← next.jump size c.offset
    return (.condition address clauses (some skip), next)
  else if b = Opcode.gotoMarker then
    let (target, next) ← next.jump size c.offset
    return (.goto address target, next)
  else
    match Opcode.actionArity? b with
    | none => throw (.unknownOpcode b c.offset)
    | some arity =>
      let (args, next) ← next.bytes arity
      return (.command address ⟨b, args⟩, next)

theorem length_readInstruction {size : Nat} {c d : Cursor} {i : Instruction}
    (h : readInstruction set size c = .ok (i, d)) : d.rest.length < c.rest.length := by
  obtain ⟨⟨b, next⟩, hb, h⟩ := Result.bind_eq_ok.1 h
  have hlen := Cursor.length_byte hb
  dsimp only at h
  split at h
  · obtain ⟨⟨clauses, after⟩, h1, h⟩ := Result.bind_eq_ok.1 h
    obtain ⟨⟨skip, last⟩, h2, h⟩ := Result.bind_eq_ok.1 h
    have := length_readClauses set h1
    have := Cursor.length_jump h2
    cases h
    dsimp only at *
    omega
  · split at h
    · obtain ⟨⟨target, last⟩, h1, h⟩ := Result.bind_eq_ok.1 h
      have := Cursor.length_jump h1
      cases h
      dsimp only at *
      omega
    · split at h
      · cases h
      · obtain ⟨⟨args, last⟩, h1, h⟩ := Result.bind_eq_ok.1 h
        have := Cursor.length_bytes h1
        cases h
        dsimp only at *
        omega

/-- Reads instructions up to the end of a code of `size` bytes. -/
def decodeFrom (size : Nat) (c : Cursor) : Logged (List Instruction) :=
  if c.rest.isEmpty then pure []
  else
    match _h : readInstruction set size c with
    | .error e => throw e
    | .ok (i, next) => do
      Logged.report (.decoded i)
      (decodeFrom size next).map (i :: ·)
termination_by c.rest.length
decreasing_by exact length_readInstruction set _h

/-- Reads all of a code. -/
def decode (code : List UInt8) : Logged (List Instruction) := do
  let instructions ← decodeFrom set code.length (Cursor.start code)
  Logged.report (.decodedAll instructions.length code.length)
  return instructions

end Bytecode
end AdventureLogic
