/-!
# Lines of a text

A line ends in a line feed, before which a carriage return may stand. The last
line need not end.
-/

namespace AdventureLogic
namespace Text

/-- A line without the carriage return at its end. -/
def dropReturn (line : String) : String :=
  match line.toList.reverse with
  | '\r' :: rest => String.ofList rest.reverse
  | _ => line

/-- The lines of a text. -/
def lines (s : String) : List String :=
  match (s.splitOn "\n").reverse with
  | [] => []
  | last :: ended => (ended.map dropReturn).reverse ++ if last = "" then [] else [last]

/-- A text whose lines after the first are indented by so many spaces. -/
def indentMore (width : Nat) (s : String) : String :=
  ("\n" ++ String.ofList (List.replicate width ' ')).intercalate (s.splitOn "\n")

end Text
end AdventureLogic
