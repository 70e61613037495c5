import AdventureLogic.FiniteSet

/-!
# Sets of names

A set of names is searched by numbers that are computed from the characters.
Each name is kept with its number, and only names with the same number are
compared character by character.

Key definitions: `HashedName`, `NameSet`, `NameSet.without?`. Key theorem:
`NameSet.mem_ofNames`.
-/

namespace AdventureLogic

/-- The number of a text. -/
def textHash (text : String) : Nat := text.foldl (fun n c => (31 * n + c.toNat) % 4294967296) 0

/-- A name with the number of its text. -/
structure HashedName where
  text : String
  hash : Nat
  hash_eq : hash = textHash text

namespace HashedName

/-- The name with a text. -/
def of (text : String) : HashedName := ⟨text, textHash text, rfl⟩

instance : Ord HashedName where
  compare a b :=
    match compare a.hash b.hash with
    | .eq => if a.text = b.text then .eq else compare a.text b.text
    | order => order

/-- Names are compared by number, then by text. -/
theorem compare_eq_lex : (compare : HashedName → HashedName → Ordering) =
    compareLex (compareOn hash) (compareOn text) := by
  funext a b
  have htext : (if a.text = b.text then Ordering.eq else compare a.text b.text) =
      compare a.text b.text :=
    ite_eq_right_iff.2 fun h => (Std.LawfulEqOrd.compare_eq_iff_eq.2 h).symm
  show (match compare a.hash b.hash with
    | Ordering.eq => if a.text = b.text then Ordering.eq else compare a.text b.text
    | order => order) = (compare a.hash b.hash).then (compare a.text b.text)
  rw [htext]
  cases compare a.hash b.hash <;> rfl

/-- Names with the same text are the same. -/
theorem ext_text {a b : HashedName} (h : a.text = b.text) : a = b := by
  have hhash : a.hash = b.hash := by rw [a.hash_eq, b.hash_eq, h]
  cases a
  cases b
  cases h
  cases hhash
  rfl

theorem of_inj {a b : String} : of a = of b ↔ a = b :=
  ⟨congrArg text, congrArg of⟩

instance : DecidableEq HashedName := fun a b =>
  decidable_of_iff (a.text = b.text) ⟨ext_text, congrArg text⟩

instance : Std.TransOrd HashedName := by
  rw [Std.TransOrd, compare_eq_lex]
  infer_instance

instance : Std.LawfulEqOrd HashedName where
  eq_of_compare {a b} h := by
    rw [compare_eq_lex, compareLex_eq_eq] at h
    exact ext_text (Std.LawfulEqOrd.eq_of_compare h.2)

end HashedName

/-- A finite set of names. -/
abbrev NameSet := Std.TreeSet HashedName

namespace NameSet

/-- The names of a list. -/
def ofNames (names : List String) : NameSet := .ofList (names.map HashedName.of)

/-- One more name. -/
def add (s : NameSet) (name : String) : NameSet := s.insert (.of name)

theorem size_erase_lt_of_get? {s : NameSet} {a b : HashedName} (h : s.get? a = some b) :
    (s.erase a).size < s.size :=
  FiniteSet.size_erase_lt (Std.TreeSet.mem_iff_isSome_get?.2 (h ▸ rfl))

/-- The set without a name, if it has it. -/
def without? (s : NameSet) (name : String) : Option { rest : NameSet // rest.size < s.size } :=
  (s.get? (.of name)).attach.map fun found => ⟨s.erase (.of name), size_erase_lt_of_get? found.2⟩

variable {s : NameSet} {a b : String}

theorem mem_ofNames {names : List String} : .of a ∈ ofNames names ↔ a ∈ names := by
  rw [ofNames, Std.TreeSet.mem_ofList, List.contains_iff_mem, List.mem_map]
  simp only [HashedName.of_inj, exists_eq_right]

theorem size_ofNames_le (names : List String) : (ofNames names).size ≤ names.length :=
  calc (ofNames names).size ≤ (names.map HashedName.of).length := Std.TreeSet.size_ofList_le
    _ = names.length := List.length_map _

theorem mem_add : .of b ∈ s.add a ↔ a = b ∨ .of b ∈ s := by
  rw [add, Std.TreeSet.mem_insert, Std.LawfulEqOrd.compare_eq_iff_eq, HashedName.of_inj]

theorem size_add_le (s : NameSet) (a : String) : (s.add a).size ≤ s.size + 1 :=
  Std.TreeSet.size_insert_le

theorem without?_eq_none : s.without? a = none ↔ .of a ∉ s := by
  rw [without?, Option.map_eq_none_iff, Option.attach_eq_none_iff,
    Std.TreeSet.mem_iff_isSome_get?, Option.not_isSome_iff_eq_none]

/-- Nothing else is taken away. -/
theorem mem_of_without? {rest : { rest : NameSet // rest.size < s.size }}
    (h : s.without? a = some rest) (hb : .of b ∈ s) : b = a ∨ .of b ∈ rest.1 := by
  obtain ⟨_, _, rfl⟩ := Option.map_eq_some_iff.1 h
  rw [Std.TreeSet.mem_erase, ne_eq, Std.LawfulEqOrd.compare_eq_iff_eq, HashedName.of_inj]
  by_cases hab : a = b
  · exact .inl hab.symm
  · exact .inr ⟨hab, hb⟩

end NameSet
end AdventureLogic
