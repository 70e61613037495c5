/-!
# Ranges of characters

A class of characters is kept as a list of closed ranges of code points.

Key definition: `CharRanges.contains`.
-/

namespace AdventureLogic
namespace Text

/-- Closed ranges of code points. -/
abbrev CharRanges := List (Nat × Nat)

namespace CharRanges

/-- Whether a character lies in one of the ranges. -/
def contains (ranges : CharRanges) (c : Char) : Bool :=
  ranges.any fun r => r.1 ≤ c.toNat && c.toNat ≤ r.2

end CharRanges
end Text
end AdventureLogic
