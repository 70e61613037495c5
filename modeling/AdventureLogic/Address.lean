/-!
# Instruction addresses

An address is a 32-bit number. Code read from bytes uses the byte offset of
each instruction; code laid out from a block graph uses numbers that only name
instructions.
-/

namespace AdventureLogic

/-- The name of an instruction: a byte offset, or a number of its own. -/
abbrev Address := UInt32

namespace Address

/-- The largest address. -/
def last : Address := 0xFFFFFFFF

/-- The next address. The largest one is its own successor. -/
def succ (a : Address) : Address := if a = last then a else a + 1

end Address
end AdventureLogic
