import AdventureLogic.Toml.Reading

/-!
# Quoted text

A text stands between double quotes, in which a backslash starts an escape, or
between single quotes, in which nothing does. Three quotes in a row open a text
that may run over several lines, up to the next three. It may itself end in one
or two quotes, and a line break right after the opening quotes does not count.
Between double quotes a backslash at the end of a line joins it to what follows.

Key definitions: `readQuoted`, `readLiteral`, `readLong`, `readText`.
-/

namespace AdventureLogic
namespace Toml

/-! ### Escapes -/

/-- The character with the given hexadecimal number, if there is one. -/
def scalar? (digits : List Char) : Option Char :=
  if digits.all (isDigitOf 16) ∧ (ofDigits 16 digits).isValidChar then
    some (Char.ofNat (ofDigits 16 digits))
  else none

/-- Reads a character by its number, written in so many digits. -/
def readScalar (width : Nat) (s : List Char) : Option (Char × List Char) :=
  if (s.take width).length = width then (scalar? (s.take width)).map fun c => (c, s.drop width)
  else none

theorem length_readScalar {width : Nat} {s rest : List Char} {c : Char}
    (h : readScalar width s = some (c, rest)) : rest.length ≤ s.length := by
  unfold readScalar at h
  split at h
  · simp only [Option.map_eq_some_iff, Prod.mk.injEq] at h
    obtain ⟨_, _, _, rfl⟩ := h
    simp
  · cases h

/-- Reads what follows a backslash. -/
def readEscape (s : List Char) : Option (Reading Char s) :=
  match s with
  | 'b' :: _ => some (.first '\x08')
  | 't' :: _ => some (.first '\t')
  | 'n' :: _ => some (.first '\n')
  | 'f' :: _ => some (.first '\x0c')
  | 'r' :: _ => some (.first '\r')
  | '\x22' :: _ => some (.first '\x22')
  | '\x5c' :: _ => some (.first '\x5c')
  | 'u' :: rest =>
    match h : readScalar 4 rest with
    | some (c, r) => some ⟨c, r, Nat.lt_succ_of_le (length_readScalar h)⟩
    | none => none
  | 'U' :: rest =>
    match h : readScalar 8 rest with
    | some (c, r) => some ⟨c, r, Nat.lt_succ_of_le (length_readScalar h)⟩
    | none => none
  | _ => none

/-! ### Texts on one line -/

/-- Reads a text up to its closing double quote, with escapes. -/
def readQuoted (s : List Char) : Option (Reading (List Char) s) :=
  match s with
  | [] => none
  | '\x22' :: _ => some (.first [])
  | '\x5c' :: rest => do
    let c ← readEscape rest
    let more ← readQuoted c.rest
    return ⟨c.value :: more.value, more.rest, by
      have h₁ := c.shorter
      have h₂ := more.shorter
      simp only [List.length_cons]
      omega⟩
  | c :: rest =>
    if isPrinting c then
      (readQuoted rest).map fun x => (x.map (c :: ·)).later
    else none
termination_by s.length
decreasing_by
  · have h := c.shorter
    simp only [List.length_cons]
    omega
  · simp

/-- Reads a text up to its closing single quote, without escapes. -/
def readLiteral (s : List Char) : Option (Reading (List Char) s) :=
  match s with
  | [] => none
  | '\x27' :: _ => some (.first [])
  | c :: rest =>
    if isPrinting c then
      (readLiteral rest).map fun x => (x.map (c :: ·)).later
    else none

/-! ### Texts over several lines -/

/-- The text after blanks and ends of lines. -/
def skipSpace (s : List Char) : List Char :=
  match newline? (skipBlanks s) with
  | none => skipBlanks s
  | some x => skipSpace x.rest
termination_by s.length
decreasing_by
  have h₁ := length_skipBlanks_le s
  have h₂ := x.shorter
  omega

theorem length_skipSpace_le (s : List Char) : (skipSpace s).length ≤ s.length := by
  fun_induction skipSpace s with
  | case1 s _ => exact length_skipBlanks_le s
  | case2 s x _ ih =>
    have h₁ := length_skipBlanks_le s
    have h₂ := x.shorter
    omega

/-- Reads what follows a backslash in a text over several lines: an escape, or the end of a line
with all the space after it, which stands for nothing. -/
def readLongEscape (s : List Char) : Option (Reading (Option Char) s) :=
  match newline? (skipBlanks s) with
  | some x =>
    some ⟨none, skipSpace x.rest, by
      have h₁ := length_skipBlanks_le s
      have h₂ := x.shorter
      have h₃ := length_skipSpace_le x.rest
      omega⟩
  | none => (readEscape s).map fun x => x.map some

theorem length_drop_quotes_lt {quotes : Nat} {c : Char} {rest : List Char} (h : 3 ≤ quotes) :
    ((c :: rest).drop (min quotes 5)).length < (c :: rest).length := by
  simp only [List.length_drop, List.length_cons]
  omega

/-- Reads a text up to three closing quotes. Of more quotes in a row, up to two belong to the
text. -/
def readLong (quote : Char) (escapes : Bool) (s : List Char) : Option (Reading (List Char) s) :=
  match s with
  | [] => none
  | c :: rest =>
    if c = quote then
      let quotes := ((c :: rest).takeWhile (· = quote)).length
      if h : 3 ≤ quotes then
        some ⟨List.replicate (min (quotes - 3) 2) quote, (c :: rest).drop (min quotes 5),
          length_drop_quotes_lt h⟩
      else (readLong quote escapes rest).map fun x => (x.map (c :: ·)).later
    else if escapes ∧ c = '\x5c' then
      match readLongEscape rest with
      | none => none
      | some e =>
        (readLong quote escapes e.rest).map fun x =>
          ((x.map (e.value.toList ++ ·)).widen (Nat.le_of_lt e.shorter)).later
    else
      match newline? (c :: rest) with
      | some x =>
        (readLong quote escapes x.rest).map fun y =>
          (y.map ('\n' :: ·)).widen (Nat.le_of_lt x.shorter)
      | none =>
        if isPrinting c then
          (readLong quote escapes rest).map fun x => (x.map (c :: ·)).later
        else none
termination_by s.length
decreasing_by
  · simp
  · have := e.shorter
    simp only [List.length_cons]
    omega
  · exact x.shorter
  · simp

/-- Reads a text over several lines after its opening quotes. -/
def readLongBody (quote : Char) (escapes : Bool) (s : List Char) :
    Option (Reading (List Char) s) :=
  match newline? s with
  | some x => x.andThen (readLong quote escapes)
  | none => readLong quote escapes s

/-- Reads a text with its quotes. -/
def readText (s : List Char) : Option (Reading (List Char) s) :=
  match s with
  | '\x22' :: '\x22' :: '\x22' :: rest =>
    (readLongBody '\x22' true rest).map fun x => x.later.later.later
  | '\x27' :: '\x27' :: '\x27' :: rest =>
    (readLongBody '\x27' false rest).map fun x => x.later.later.later
  | '\x22' :: rest => (readQuoted rest).map Reading.later
  | '\x27' :: rest => (readLiteral rest).map Reading.later
  | _ => none

end Toml
end AdventureLogic
