/-!
# Words

Jump distances and the arguments of some tests are 16-bit words, low byte
first. A distance is read as a signed number.
-/

namespace AdventureLogic
namespace Bytecode
namespace Word

/-- The word of a low and a high byte. -/
def ofBytes (low high : UInt8) : UInt16 := UInt16.ofNat (low.toNat + 256 * high.toNat)

/-- The low and the high byte of a word. -/
def bytes (w : UInt16) : List UInt8 :=
  [UInt8.ofNat (w.toNat % 256), UInt8.ofNat (w.toNat / 256)]

/-- A word as a signed number. -/
def signed (w : UInt16) : Int :=
  if w.toNat < 32768 then w.toNat else (w.toNat : Int) - 65536

/-- Whether a signed word can hold the number. -/
def Fits (n : Int) : Prop := -32768 ≤ n ∧ n ≤ 32767

instance (n : Int) : Decidable (Fits n) := inferInstanceAs (Decidable (_ ∧ _))

/-- The word of a signed number, which has to fit. -/
def ofSigned (n : Int) : UInt16 := UInt16.ofNat (n % 65536).toNat

end Word
end Bytecode
end AdventureLogic
