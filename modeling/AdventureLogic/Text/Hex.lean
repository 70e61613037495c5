/-!
# Hexadecimal text

Addresses and byte offsets are shown in lower-case hexadecimal with a least
number of digits; a longer number keeps all of its digits.
-/

namespace AdventureLogic
namespace Text

/-- The hexadecimal digits of `n`, with zeros in front up to `width` digits. -/
def hex (width n : Nat) : String :=
  let digits := Nat.toDigits 16 n
  String.ofList (List.replicate (width - digits.length) '0' ++ digits)

end Text
end AdventureLogic
