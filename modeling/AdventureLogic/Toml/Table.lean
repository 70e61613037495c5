import AdventureLogic.Toml.Moment
import AdventureLogic.Toml.Number

/-!
# Tables of a TOML document

A document is a table of named values, and tables stand inside tables. How a
table came about decides what may still be added to it: a header may complete
a table that was only implied, a dotted key may extend a table made by dotted
keys, and nothing extends a table written between braces. Each name is given
once.

Key definitions: `Value`, `Entries.put`, `Entries.alter`.
-/

namespace AdventureLogic
namespace Toml

/-- How a table came into its document. -/
inductive Origin where
  /-- It was only named on the way to another header. -/
  | implied
  /-- It has a header of its own. -/
  | header
  /-- It arose from a dotted key. -/
  | dotted
  /-- It was written between braces. -/
  | braced
  deriving DecidableEq, Inhabited

/-- A value of a document. -/
inductive Value where
  | boolean (b : Bool)
  | integer (n : Int)
  | number (x : Decimal)
  | moment (m : Moment)
  | text (s : String)
  | array (items : List Value)
  | table (origin : Origin) (entries : List (String × Value))
  /-- Tables with one header each, collected under one name, the last one first. -/
  | tables (rows : List (List (String × Value)))
  deriving Inhabited

/-- The named values of a table, in order of arrival. -/
abbrev Entries := List (String × Value)

/-- A key: one name, or several with dots between them. -/
structure Key where
  first : String
  rest : List String := []
  deriving DecidableEq, Inhabited

/-- A key with its value. -/
structure Pair where
  key : Key
  value : Value
  deriving Inhabited

namespace Entries

/-- Gives a name a value, in its old place if it has one. -/
def set (entries : Entries) (name : String) (value : Value) : Entries :=
  match entries with
  | [] => [(name, value)]
  | e :: rest => if e.1 = name then (name, value) :: rest else e :: set rest name value

/-- Adds a value under a key. Only tables made by dotted keys are extended. -/
def put (value : Value) : String → List String → Entries → Option Entries
  | name, [], entries =>
    match entries.lookup name with
    | none => some (entries.set name value)
    | some _ => none
  | name, next :: rest, entries =>
    match entries.lookup name with
    | none => do
      let inner ← put value next rest []
      return entries.set name (.table .dotted inner)
    | some (.table .dotted inner) => do
      let inner ← put value next rest inner
      return entries.set name (.table .dotted inner)
    | some _ => none

/-- Adds pairs one after the other. -/
def putAll (entries : Entries) (pairs : List Pair) : Option Entries :=
  pairs.foldlM (fun es p => put p.value p.key.first p.key.rest es) entries

/--
Changes what stands at the end of a header's path. Tables on the way that are
missing are implied. Of collected tables the way leads through the last.
-/
def alter (change : Option Value → Option Value) :
    String → List String → Entries → Option Entries
  | name, [], entries => do
    let value ← change (entries.lookup name)
    return entries.set name value
  | name, next :: rest, entries =>
    match entries.lookup name with
    | none => do
      let inner ← alter change next rest []
      return entries.set name (.table .implied inner)
    | some (.table .braced _) => none
    | some (.table origin inner) => do
      let inner ← alter change next rest inner
      return entries.set name (.table origin inner)
    | some (.tables rows) => do
      let inner ← alter change next rest (rows.headD [])
      return entries.set name (.tables (inner :: rows.tail))
    | some _ => none

end Entries
end Toml
end AdventureLogic
