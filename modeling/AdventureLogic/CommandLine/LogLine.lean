import AdventureLogic.Event
import AdventureLogic.Text.Lines
import AdventureLogic.Text.Terminal

/-!
# Lines of the log

A message stands in the log behind its level. If it has several lines, those
after the first are indented, so that each message can be told from the next.
The log is no terminal: control sequences in a message are left out.
-/

namespace AdventureLogic
namespace CommandLine

/-- By how much the further lines of a message are indented. -/
def logIndent : Nat := 4

/-- A message as it is written to the log, with the end of its line. -/
def logText (level : Level) (message : String) : String :=
  Text.Terminal.plain (level.name ++ " " ++ Text.indentMore logIndent message ++ "\n")

end CommandLine
end AdventureLogic
