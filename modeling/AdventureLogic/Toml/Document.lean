import AdventureLogic.Toml.Reader

/-!
# Reading TOML documents

A document is a sequence of lines: pairs, headers of tables, and headers that
add a table to a collection. The pairs after a header belong to its table, the
pairs before the first header to the document itself.

Key definitions: `readLines`, `Document.entries`, `read`.
-/

namespace AdventureLogic
namespace Toml

/-- A header, and whether it adds a table to a collection. -/
structure Heading where
  key : Key
  collects : Bool
  deriving DecidableEq, Inhabited

/-- A line that says something. -/
inductive Line where
  | pair (p : Pair)
  | heading (h : Heading)
  deriving Inhabited

/-- A header with the pairs under it. -/
structure Section where
  heading : Heading
  pairs : List Pair
  deriving Inhabited

/-- A document: pairs, then sections. -/
structure Document where
  pairs : List Pair
  sections : List Section
  deriving Inhabited

/-! ### Lines -/

/-- What follows the end of a line. Before it only blanks and a comment may stand. -/
def endLine? (s : List Char) : Option { rest : List Char // rest.length ≤ s.length } :=
  have h := Nat.le_trans (length_skipComment_le (skipBlanks s)) (length_skipBlanks_le s)
  match newline? (skipComment (skipBlanks s)) with
  | some x => some ⟨x.rest, Nat.le_trans (Nat.le_of_lt x.shorter) h⟩
  | none => if skipComment (skipBlanks s) = [] then some ⟨[], Nat.zero_le _⟩ else none

/-- Ends the line after a reading. -/
def Reading.endLine? {α : Type} {s : List Char} (x : Reading α s) : Option (Reading α s) :=
  (Toml.endLine? x.rest).map fun r => ⟨x.value, r.val, Nat.lt_of_le_of_lt r.property x.shorter⟩

/-- Reads a header after its opening brackets. -/
def readHeading (collects : Bool) (s : List Char) : Option (Reading Line s) := do
  let key ← readKey s
  match collects, h : key.rest with
  | false, ']' :: rest =>
    Reading.endLine? ⟨.heading ⟨key.value, false⟩, rest, by
      have hk := key.shorter
      rw [h] at hk
      simp only [List.length_cons] at hk
      omega⟩
  | true, ']' :: ']' :: rest =>
    Reading.endLine? ⟨.heading ⟨key.value, true⟩, rest, by
      have hk := key.shorter
      rw [h] at hk
      simp only [List.length_cons] at hk
      omega⟩
  | _, _ => none

/-- Reads a line with a key and its value. -/
def readPair (s : List Char) : Option (Reading Line s) := do
  let key ← readKey s
  let mark ← expect '=' key.rest
  let x ← readValue depthLimit (skipBlanks mark.rest)
  have h := Nat.le_trans (length_skipBlanks_le mark.rest)
    (Nat.le_of_lt (Nat.lt_trans mark.shorter key.shorter))
  (x.widen h |>.map fun value => .pair ⟨key.value, value⟩).endLine?

/-- Reads a line that says something. -/
def readLine (s : List Char) : Option (Reading Line s) :=
  match s with
  | '[' :: '[' :: rest =>
    (readHeading true rest).map fun x => x.later.later
  | '[' :: rest => (readHeading false rest).map Reading.later
  | text => readPair text

/-- Reads all lines of a text. The last comment needs no end of line. -/
def readLines (s : List Char) : Option (List Line) :=
  if skipComment (skipLines s) = [] then some []
  else
    match readLine (skipLines s) with
    | none => none
    | some x => (readLines x.rest).map (x.value :: ·)
termination_by s.length
decreasing_by exact Nat.lt_of_lt_of_le x.shorter (length_skipLines_le s)

/-! ### Documents -/

namespace Document

/-- The lines under the headers they belong to. -/
def ofLines : List Line → Document
  | [] => ⟨[], []⟩
  | .pair p :: rest =>
    let document := ofLines rest
    ⟨p :: document.pairs, document.sections⟩
  | .heading h :: rest =>
    let document := ofLines rest
    ⟨[], ⟨h, document.pairs⟩ :: document.sections⟩

end Document

namespace Section

/-- What a section makes of the value that stood at its header's path. -/
def complete (s : Section) (present : Option Value) : Option Value :=
  if s.heading.collects then do
    let row ← Entries.putAll [] s.pairs
    match present with
    | none => some (.tables [row])
    | some (.tables rows) => some (.tables (row :: rows))
    | some _ => none
  else
    match present with
    | none => (Entries.putAll [] s.pairs).map (.table .header)
    | some (.table .implied inner) => (Entries.putAll inner s.pairs).map (.table .header)
    | some _ => none

/-- Adds a section to the entries of a document. -/
def addTo (s : Section) (entries : Entries) : Option Entries :=
  Entries.alter s.complete s.heading.key.first s.heading.key.rest entries

end Section

namespace Document

/-- The values of a document by name, unless one is given twice. -/
def entries (d : Document) : Option Entries := do
  let top ← Entries.putAll [] d.pairs
  d.sections.foldlM (fun es s => s.addTo es) top

end Document

/-- Reads a document. A byte order mark may stand at its front. -/
def read (text : String) : Option Entries := do
  let chars :=
    match text.toList with
    | '\uFEFF' :: rest => rest
    | s => s
  let lines ← readLines chars
  (Document.ofLines lines).entries

end Toml
end AdventureLogic
