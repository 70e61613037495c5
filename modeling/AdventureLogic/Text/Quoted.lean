import AdventureLogic.Text.Extending
import AdventureLogic.Text.Hex
import AdventureLogic.Text.Unprintable

/-!
# Quoted text

A text between double quotes, in which quotes, backslashes and characters that
do not show are escaped, so that the text can be told from what it looks like.
-/

namespace AdventureLogic
namespace Text

/-- Whether a character is written by its number. -/
def isHidden (c : Char) : Bool := isExtending c || isUnprintable c

/-- A character as it stands between quotes. -/
def quotedChar (c : Char) : String :=
  if c = '\x00' then "\\0"
  else if c = '\t' then "\\t"
  else if c = '\n' then "\\n"
  else if c = '\r' then "\\r"
  else if c = '\x22' then "\\\""
  else if c = '\x5c' then "\\\\"
  else if isHidden c then "\\u\x7b" ++ hex 1 c.toNat ++ "\x7d"
  else c.toString

/-- A text between double quotes. -/
def quoted (s : String) : String :=
  "\"" ++ String.join (s.toList.map quotedChar) ++ "\""

end Text
end AdventureLogic
