/-!
# Text without control sequences

A terminal does not show all that it is sent. Control characters do something
else, and an escape character opens a sequence that tells it what to do: how to
colour the text, where to write next, what title to give its window. `plain`
leaves out what a terminal would not show.

Spaces inside an ordinary sequence are shown nevertheless, and so is the text
after them up to the next control character. Then the sequence goes on where it
was interrupted.

Key definitions: `Terminal.Sequence`, `Terminal.plain`.
-/

namespace AdventureLogic
namespace Text
namespace Terminal

/-- The sequence that a terminal is in. -/
inductive Sequence where
  /-- None: text is shown. -/
  | none
  /-- An escape character was read. -/
  | escape
  /-- After the escape character come characters that belong to one that follows. -/
  | extended
  /-- A sequence with parameters, up to a letter. -/
  | control
  /-- The head of a string for the device, before its parameters. -/
  | head
  /-- The parameters in the head of a string. -/
  | parameters
  /-- What follows the parameters in the head of a string. -/
  | tail
  /-- A string that is taken as a whole. -/
  | body
  /-- A string for the system, up to a bell. -/
  | title
  deriving DecidableEq, Inhabited

/-- Whether the code point of a character lies between two others. -/
def within (low high : Nat) (c : Char) : Bool := low ≤ c.toNat && c.toNat ≤ high

/-- Whether a string is ended by a character: one of its bytes is the string terminator. -/
def endsString (c : Char) : Bool := (String.utf8EncodeChar c).contains 0x9C

namespace Sequence

/-- The sequence after an escape character and one more character. -/
def afterEscape (c : Char) : Sequence :=
  if !within 0x20 0x7E c then .escape
  else if within 0x20 0x2F c then .extended
  else if c = '[' then .control
  else if c = ']' then .title
  else if c = 'P' then .head
  else if c = 'X' ∨ c = '^' ∨ c = '_' then .body
  else .none

/-- The sequence after one more character. Cancelling ends any sequence, and an escape character
opens a new one. -/
def next (q : Sequence) (c : Char) : Sequence :=
  if c = '\x18' ∨ c = '\x1a' then .none
  else if c = '\x1b' then .escape
  else
    match q with
    | .none => .none
    | .escape => afterEscape c
    | .extended => if within 0x30 0x7E c then .none else .extended
    | .control => if within 0x40 0x7E c then .none else .control
    | .head =>
      if within 0x20 0x2F c then .tail
      else if within 0x30 0x3F c then .parameters
      else if within 0x40 0x7E c then .body
      else .head
    | .parameters =>
      if within 0x20 0x2F c then .tail
      else if within 0x3C 0x7E c then .body
      else .parameters
    | .tail => if within 0x30 0x7E c then .body else .tail
    | .body => if endsString c then .none else .body
    | .title => if c = '\x07' then .none else .title

end Sequence

/-- A control character that sets text apart. -/
def isSpacing (c : Char) : Bool := c = '\t' || c = '\n' || c = '\x0c' || c = '\r'

/-- Whether a character is shown outside of sequences. -/
def isShown (c : Char) : Bool := isSpacing c || within 0x20 0x7E c || 0x80 ≤ c.toNat

/-- Whether a character is shown although it comes in a sequence. -/
def shows (q : Sequence) (c : Char) : Bool :=
  match q with
  | .none => isShown c
  | .escape => isSpacing c
  | .extended => isSpacing c
  | .control => isSpacing c
  | _ => false

/-- What is shown of some characters that come in a sequence; `showing` says that the last one was
shown. -/
def plainFrom (q : Sequence) (showing : Bool) : List Char → List Char
  | [] => []
  | c :: rest =>
    if if showing then isShown c else shows q c then
      c :: plainFrom (if c.toNat < 0x80 then q else .none) true rest
    else plainFrom (q.next c) false rest

/-- What a terminal shows of a text. -/
def plain (s : String) : String := String.ofList (plainFrom .none false s.toList)

end Terminal
end Text
end AdventureLogic
