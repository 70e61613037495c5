import AdventureLogic.Event
import AdventureLogic.Options.Basic
import AdventureLogic.Toml.Document

/-!
# Options in a file

Options are kept in a TOML document with two groups, `recompiler` and
`opcodes`, of one field each. What is left out keeps its default; a name that
is not known, or a value that does not fit, spoils the whole file. A group may
also be written as an array that holds its field first.

Key definitions: `Options.ofToml`, `Options.load`.
-/

namespace AdventureLogic
namespace Options

open Toml (Entries Value)

/-- A value that says yes or no. -/
def boolean? : Value → Option Bool
  | .boolean b => some b
  | _ => none

/-- A value that names an opcode. -/
def opcode? : Value → Option Opcode
  | .integer n => if 0 ≤ n ∧ n ≤ 255 then some (UInt8.ofNat n.toNat) else none
  | _ => none

/-- A value that lists opcodes. -/
def opcodes? : Value → Option (List Opcode)
  | .array items => items.mapM opcode?
  | _ => none

/-- The entry of a name, or the default if there is none. -/
def entryOr {α : Type} (entries : Entries) (name : String) (default : α)
    (read : Value → Option α) : Option α :=
  match entries.lookup name with
  | none => some default
  | some v => read v

/-- The field of a group that has only one. -/
def field {α : Type} (name : String) (default : α) (read : Value → Option α) : Value → Option α
  | .table _ entries =>
    if entries.all fun e => e.1 = name then entryOr entries name default read else none
  | .array [] => some default
  | .array (v :: _) => read v
  | _ => none

/-- The options that the entries of a document give. -/
def ofEntries? (entries : Entries) : Option Options :=
  if entries.all fun e => e.1 = "recompiler" || e.1 = "opcodes" then do
    let standard : Options := {}
    let selfContained ← entryOr entries "recompiler" standard.selfContained
      (field "self_contained_conditionals" standard.selfContained boolean?)
    let variableTests ← entryOr entries "opcodes" standard.variableTests
      (field "variable_arity_tests" standard.variableTests opcodes?)
    return ⟨selfContained, variableTests⟩
  else none

/-- Reads options from a text. -/
def ofToml (text : String) : Except Error Options :=
  match (Toml.read text).bind ofEntries? with
  | some options => .ok options
  | none => .error .invalidOptions

/-- Reads options from the content of a file. -/
def ofBytes (bytes : List UInt8) : Except Error Options :=
  match String.fromUTF8? ⟨bytes.toArray⟩ with
  | some text => ofToml text
  | none => .error (.file .invalidText)

/-- Reads options from a file, given what reading its content gave. -/
def load (path : String) (content : Except FileFault (List UInt8)) : Logged Options := do
  let bytes ← Logged.ofExcept (content.mapError Error.file)
  let options ← Logged.ofExcept (ofBytes bytes)
  Logged.report (.configured path)
  return options

end Options
end AdventureLogic
