import AdventureLogic.Bytecode.Word
import AdventureLogic.Error
import AdventureLogic.Result

/-!
# Reading bytes

A cursor is a place in a byte string. Reading moves it forward and fails at
the offset where a byte is missing.

Key definitions: `Cursor.byte`, `Cursor.word`, `Cursor.bytes`, `Cursor.words`,
`Cursor.jump`. The lemmas `Cursor.length_…` say that reading leaves less, which
is why readers end.
-/

namespace AdventureLogic
namespace Bytecode

/-- A place in a byte string: the offset of the next byte, and the bytes from there on. -/
structure Cursor where
  offset : Nat
  rest : List UInt8
  deriving DecidableEq, Inhabited

namespace Cursor

/-- The start of a byte string. -/
def start (code : List UInt8) : Cursor := ⟨0, code⟩

/-- Reads a byte. -/
def byte (c : Cursor) : Except Error (UInt8 × Cursor) :=
  match c.rest with
  | [] => .error (.unexpectedEnd c.offset)
  | b :: rest => .ok (b, ⟨c.offset + 1, rest⟩)

/-- Reads a word. -/
def word (c : Cursor) : Except Error (UInt16 × Cursor) := do
  let (low, c) ← c.byte
  let (high, c) ← c.byte
  return (Word.ofBytes low high, c)

/-- Reads some bytes. -/
def bytes : Nat → Cursor → Except Error (List UInt8 × Cursor)
  | 0, c => .ok ([], c)
  | n + 1, c => do
    let (b, c) ← c.byte
    let (bs, c) ← bytes n c
    return (b :: bs, c)

/-- Reads some words. -/
def words : Nat → Cursor → Except Error (List UInt16 × Cursor)
  | 0, c => .ok ([], c)
  | n + 1, c => do
    let (w, c) ← c.word
    let (ws, c) ← words n c
    return (w :: ws, c)

/-- Reads the distance of a jump at the end of an instruction and gives the target. The instruction
starts at `source`, and the target has to lie within a code of `size` bytes or at its end. -/
def jump (size source : Nat) (c : Cursor) : Except Error (UInt32 × Cursor) := do
  let (w, c) ← c.word
  let target : Int := c.offset + Word.signed w
  if 0 ≤ target ∧ target ≤ size then
    return (UInt32.ofNat target.toNat, c)
  else
    throw (.jumpOutsideCode source target)

theorem length_byte {c d : Cursor} {b : UInt8} (h : c.byte = .ok (b, d)) :
    d.rest.length + 1 = c.rest.length := by
  unfold byte at h
  split at h
  · cases h
  · rename_i rest hr
    cases h
    simp [hr]

theorem length_word {c d : Cursor} {w : UInt16} (h : c.word = .ok (w, d)) :
    d.rest.length + 2 = c.rest.length := by
  obtain ⟨⟨low, c1⟩, h1, h⟩ := Result.bind_eq_ok.1 h
  obtain ⟨⟨high, c2⟩, h2, h⟩ := Result.bind_eq_ok.1 h
  cases h
  have := length_byte h1
  have := length_byte h2
  omega

theorem length_bytes {n : Nat} : ∀ {c d : Cursor} {bs : List UInt8},
    c.bytes n = .ok (bs, d) → d.rest.length + n = c.rest.length := by
  induction n with
  | zero =>
    intro c d bs h
    cases h
    rfl
  | succ n ih =>
    intro c d bs h
    obtain ⟨⟨b, c1⟩, h1, h⟩ := Result.bind_eq_ok.1 h
    obtain ⟨⟨bs1, c2⟩, h2, h⟩ := Result.bind_eq_ok.1 h
    cases h
    have := length_byte h1
    have := ih h2
    omega

theorem length_words {n : Nat} : ∀ {c d : Cursor} {ws : List UInt16},
    c.words n = .ok (ws, d) → d.rest.length + 2 * n = c.rest.length := by
  induction n with
  | zero =>
    intro c d ws h
    cases h
    rfl
  | succ n ih =>
    intro c d ws h
    obtain ⟨⟨w, c1⟩, h1, h⟩ := Result.bind_eq_ok.1 h
    obtain ⟨⟨ws1, c2⟩, h2, h⟩ := Result.bind_eq_ok.1 h
    cases h
    have := length_word h1
    have := ih h2
    omega

theorem length_jump {size source : Nat} {c d : Cursor} {t : UInt32}
    (h : c.jump size source = .ok (t, d)) : d.rest.length + 2 = c.rest.length := by
  obtain ⟨⟨w, c1⟩, h1, h⟩ := Result.bind_eq_ok.1 h
  dsimp only at h
  split at h
  · cases h
    exact length_word h1
  · cases h

end Cursor
end Bytecode
end AdventureLogic
