/-!
# Reading from the front of a text

Everything in a document is read from the front of a text. A reader says what
is left of the text, and that it is shorter, which is why reading ends. Here
are the readers that all others are made of: blanks, comments, ends of lines,
single characters and digits.

Key definitions: `Reading`, `skipBlanks`, `skipLines`, `expect`, `readDigits`.
-/

namespace AdventureLogic
namespace Toml

/-- A value read from the front of a text, and what is left of the text. -/
structure Reading (α : Type) (text : List Char) where
  value : α
  rest : List Char
  shorter : rest.length < text.length

namespace Reading

variable {α β : Type} {s t : List Char}

/-- Changes the value that was read. -/
def map (f : α → β) (x : Reading α s) : Reading β s := ⟨f x.value, x.rest, x.shorter⟩

/-- What was read from a later part of a text, seen from an earlier one. -/
def widen (h : t.length ≤ s.length) (x : Reading α t) : Reading α s :=
  ⟨x.value, x.rest, Nat.lt_of_lt_of_le x.shorter h⟩

/-- A value read from the first character of a text. -/
def first {c : Char} (value : α) : Reading α (c :: s) := ⟨value, s, Nat.lt_succ_self s.length⟩

/-- What was read after the first character of a text. -/
def later {c : Char} (x : Reading α s) : Reading α (c :: s) := x.widen (Nat.le_succ s.length)

/-- Reads on after what was read. -/
def andThen (x : Reading α s) (next : (t : List Char) → Option (Reading β t)) :
    Option (Reading β s) :=
  (next x.rest).map fun y => y.widen (Nat.le_of_lt x.shorter)

end Reading

/-! ### Blanks, comments and ends of lines -/

/-- A blank inside a line. -/
def isBlank (c : Char) : Bool := c = ' ' || c = '\t'

/-- A character that a comment may hold: all but the control characters, tabs allowed. -/
def isPrinting (c : Char) : Bool := c = '\t' || (' '.toNat ≤ c.toNat && c.toNat ≠ 0x7F)

/-- The text after its leading blanks. -/
def skipBlanks (s : List Char) : List Char := s.dropWhile isBlank

theorem length_dropWhile_le (p : Char → Bool) (s : List Char) :
    (s.dropWhile p).length ≤ s.length := by
  simpa using (List.dropWhile_suffix p (l := s)).length_le

theorem length_skipBlanks_le (s : List Char) : (skipBlanks s).length ≤ s.length :=
  length_dropWhile_le isBlank s

/-- What follows the first character after the leading blanks is shorter. -/
theorem length_lt_of_skipBlanks {s rest : List Char} {c : Char} (h : skipBlanks s = c :: rest) :
    rest.length < s.length := by
  have hb := length_skipBlanks_le s
  rw [h] at hb
  exact hb

/-- A value read from the first character of a text and those after it that are of a kind. -/
def Reading.firstWhile {α : Type} {s : List Char} {c : Char} (p : Char → Bool) (value : α) :
    Reading α (c :: s) :=
  ⟨value, s.dropWhile p, Nat.lt_succ_of_le (length_dropWhile_le p s)⟩

/-- The text after a comment, if one stands at its front. -/
def skipComment : List Char → List Char
  | '#' :: rest => rest.dropWhile isPrinting
  | s => s

theorem length_skipComment_le (s : List Char) : (skipComment s).length ≤ s.length := by
  unfold skipComment
  split
  · rename_i rest
    have := length_dropWhile_le isPrinting rest
    simp only [List.length_cons]
    omega
  · exact Nat.le_refl _

/-- The text after an end of line, if one stands at its front. -/
def newline? (s : List Char) : Option (Reading Unit s) :=
  match s with
  | '\n' :: _ => some (.first ())
  | '\r' :: '\n' :: _ => some (Reading.first ()).later
  | _ => none

/-- The text after blanks, comments and ends of lines. -/
def skipLines (s : List Char) : List Char :=
  match newline? (skipComment (skipBlanks s)) with
  | none => skipBlanks s
  | some x => skipLines x.rest
termination_by s.length
decreasing_by
  have h₁ := length_skipBlanks_le s
  have h₂ := length_skipComment_le (skipBlanks s)
  have h₃ := x.shorter
  omega

theorem length_skipLines_le (s : List Char) : (skipLines s).length ≤ s.length := by
  fun_induction skipLines s with
  | case1 s _ => exact length_skipBlanks_le s
  | case2 s x _ ih =>
    have h₁ := length_skipBlanks_le s
    have h₂ := length_skipComment_le (skipBlanks s)
    have h₃ := x.shorter
    omega

/-! ### Characters -/

/-- Reads the given character. -/
def expect (c : Char) (s : List Char) : Option (Reading Unit s) :=
  match s with
  | [] => none
  | d :: _ => if d = c then some (.first ()) else none

/-- Reads a sign, and says whether it is a minus. -/
def sign? (s : List Char) : Option (Reading Bool s) :=
  match s with
  | '+' :: _ => some (.first false)
  | '-' :: _ => some (.first true)
  | _ => none

/-! ### Digits -/

/-- The value of a digit, letters counting from ten. -/
def digitValue (c : Char) : Nat :=
  if c.isDigit then c.toNat - '0'.toNat
  else if 'a' ≤ c ∧ c ≤ 'f' then c.toNat - 'a'.toNat + 10
  else if 'A' ≤ c ∧ c ≤ 'F' then c.toNat - 'A'.toNat + 10
  else 16

/-- A digit in the given base, up to sixteen. -/
def isDigitOf (base : Nat) (c : Char) : Bool := digitValue c < base

/-- The digits at the front of a text; a single underscore may stand before a digit. -/
def spanDigits (base : Nat) : List Char → List Char × List Char
  | [] => ([], [])
  | '_' :: c :: rest =>
    if isDigitOf base c then (spanDigits base rest).map (c :: ·) id
    else ([], '_' :: c :: rest)
  | c :: rest =>
    if isDigitOf base c then (spanDigits base rest).map (c :: ·) id
    else ([], c :: rest)

theorem length_spanDigits_le (base : Nat) (s : List Char) :
    (spanDigits base s).2.length ≤ s.length := by
  fun_induction spanDigits base s <;> simp_all <;> omega

/-- The number that digits stand for. -/
def ofDigits (base : Nat) (digits : List Char) : Nat :=
  digits.foldl (fun n c => base * n + digitValue c) 0

/-- Reads one digit or more. -/
def readDigits (base : Nat) (s : List Char) : Option (Reading (List Char) s) :=
  match s with
  | [] => none
  | c :: rest =>
    if isDigitOf base c then
      some ⟨c :: (spanDigits base rest).1, (spanDigits base rest).2,
        Nat.lt_succ_of_le (length_spanDigits_le base rest)⟩
    else none

/-- Reads the digits of a decimal number. No zero stands in front of another digit. -/
def readDecimal (s : List Char) : Option (Reading (List Char) s) :=
  match s with
  | '0' :: _ => some (.first ['0'])
  | text => readDigits 10 text

/-- Reads two digits that make a number from `low` to `high`. -/
def readTwoDigits (low high : Nat) (s : List Char) : Option (Reading Nat s) :=
  match s with
  | a :: b :: _ =>
    if isDigitOf 10 a ∧ isDigitOf 10 b ∧ low ≤ ofDigits 10 [a, b] ∧ ofDigits 10 [a, b] ≤ high then
      some (Reading.first (ofDigits 10 [a, b])).later
    else none
  | _ => none

end Toml
end AdventureLogic
