import AdventureLogic.Toml.Quotation
import AdventureLogic.Toml.Table

/-!
# Reading keys and values

A key is one name or several with dots between them; a name may be quoted. A
value starts with a character that tells of what kind it is, except that
moments and numbers have to be tried one after the other.

Key definitions: `readKey`, `readValue`.
-/

namespace AdventureLogic
namespace Toml

/-! ### Keys -/

/-- A character of a name without quotes. -/
def isBare (c : Char) : Bool := c.isAlphanum || c = '_' || c = '-'

/-- Reads a name of a key. -/
def readName (s : List Char) : Option (Reading String s) :=
  match s with
  | [] => none
  | '\x22' :: rest => (readQuoted rest).map fun x => (x.map String.ofList).later
  | '\x27' :: rest => (readLiteral rest).map fun x => (x.map String.ofList).later
  | c :: rest =>
    if isBare c then
      some (.firstWhile isBare (String.ofList (c :: rest.takeWhile isBare)))
    else none

/-- Reads the names of a key. Blanks may stand around each of them. -/
def readNames (s : List Char) : Option (Reading Key s) :=
  match readName (skipBlanks s) with
  | none => none
  | some name =>
    have h : name.rest.length < s.length :=
      Nat.lt_of_lt_of_le name.shorter (length_skipBlanks_le s)
    match h' : skipBlanks name.rest with
    | '.' :: rest =>
      have h'' : rest.length < s.length := Nat.lt_trans (length_lt_of_skipBlanks h') h
      (readNames rest).map fun x =>
        (x.map fun k => ⟨name.value, k.first :: k.rest⟩).widen (Nat.le_of_lt h'')
    | rest =>
      some ⟨⟨name.value, []⟩, rest, Nat.lt_of_le_of_lt (h' ▸ length_skipBlanks_le name.rest) h⟩
termination_by s.length

/-- How many names a key may have, and how deep arrays and tables may be nested. -/
def depthLimit : Nat := 79

/-- Reads a key. -/
def readKey (s : List Char) : Option (Reading Key s) :=
  (readNames s).filter fun x => x.value.rest.length < depthLimit

/-! ### Values -/

/-- Reads a number or a moment. -/
def readScalarValue (s : List Char) : Option (Reading Value s) :=
  match readMoment s with
  | some x => some (x.map .moment)
  | none =>
    match readNumber s with
    | some x => some (x.map .number)
    | none => (readInteger s).map fun x => x.map .integer

mutual

/-- Reads a value in which arrays and tables are nested at most `depth` deep. -/
def readValue (depth : Nat) (s : List Char) : Option (Reading Value s) :=
  match s with
  | 't' :: 'r' :: 'u' :: 'e' :: _ =>
    some (Reading.first (.boolean true)).later.later.later
  | 'f' :: 'a' :: 'l' :: 's' :: 'e' :: _ =>
    some (Reading.first (.boolean false)).later.later.later.later
  | '[' :: rest =>
    match depth with
    | 0 => none
    | inner + 1 => (readItems inner rest).map fun x => (x.map Value.array).later
  | '\x7b' :: rest =>
    match depth with
    | 0 => none
    | inner + 1 =>
      match h : skipBlanks rest with
      | '\x7d' :: after =>
        some ⟨.table .braced [], after, by
          have hb := length_skipBlanks_le rest
          rw [h] at hb
          simp only [List.length_cons] at hb ⊢
          omega⟩
      | _ =>
        (readEntries inner [] rest).map fun x => (x.map (Value.table .braced)).later
  | text =>
    match readText text with
    | some x => some (x.map fun cs => .text (String.ofList cs))
    | none => readScalarValue text
termination_by 2 * s.length
decreasing_by all_goals (simp only [List.length_cons]; omega)

/-- Reads the items of an array up to its closing bracket. A comma may follow the last item. -/
def readItems (depth : Nat) (s : List Char) : Option (Reading (List Value) s) :=
  match h : skipLines s with
  | ']' :: rest =>
    some ⟨[], rest, by
      have hs := length_skipLines_le s
      rw [h] at hs
      simp only [List.length_cons] at hs
      omega⟩
  | _ =>
    match readValue depth (skipLines s) with
    | none => none
    | some item =>
      have hi : item.rest.length < s.length :=
        Nat.lt_of_lt_of_le item.shorter (length_skipLines_le s)
      match h' : skipLines item.rest with
      | ',' :: rest =>
        have hr : rest.length < s.length := by
          have hs := length_skipLines_le item.rest
          rw [h'] at hs
          simp only [List.length_cons] at hs
          omega
        (readItems depth rest).map fun x => (x.map (item.value :: ·)).widen (Nat.le_of_lt hr)
      | ']' :: rest =>
        some ⟨[item.value], rest, by
          have hs := length_skipLines_le item.rest
          rw [h'] at hs
          simp only [List.length_cons] at hs
          omega⟩
      | _ => none
termination_by 2 * s.length + 1
decreasing_by
  · have hs := length_skipLines_le s
    omega
  · omega

/-- Reads the pairs of a table between braces up to the closing one. No comma follows the last. -/
def readEntries (depth : Nat) (entries : Entries) (s : List Char) :
    Option (Reading Entries s) :=
  match readKey s with
  | none => none
  | some key =>
    have hk := key.shorter
    match h : key.rest with
    | '=' :: rest =>
      match readValue depth (skipBlanks rest) with
      | none => none
      | some item =>
        have hi : item.rest.length + 1 < s.length := by
          have hb := length_skipBlanks_le rest
          have hv := item.shorter
          rw [h] at hk
          simp only [List.length_cons] at hk
          omega
        match Entries.put item.value key.value.first key.value.rest entries with
        | none => none
        | some entries =>
          match h' : skipBlanks item.rest with
          | ',' :: rest =>
            have hr : rest.length < s.length := by
              have hb := length_skipBlanks_le item.rest
              rw [h'] at hb
              simp only [List.length_cons] at hb
              omega
            (readEntries depth entries rest).map fun x => x.widen (Nat.le_of_lt hr)
          | '\x7d' :: rest =>
            some ⟨entries, rest, by
              have hb := length_skipBlanks_le item.rest
              rw [h'] at hb
              simp only [List.length_cons] at hb
              omega⟩
          | _ => none
    | _ => none
termination_by 2 * s.length
decreasing_by
  · have hb := length_skipBlanks_le rest
    rw [h] at hk
    simp only [List.length_cons] at hk
    omega
  · omega

end

end Toml
end AdventureLogic
