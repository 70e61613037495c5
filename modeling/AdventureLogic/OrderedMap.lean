import AdventureLogic.NatMap

/-!
# Maps in insertion order

A finite map that remembers the order in which its keys arrived. Giving a
present key a new value leaves the key in its place; an erased key that comes
back goes to the end. Label tables and address redirections are maps of
this kind, because their order can be seen.

The entries stand in slots, and an index leads from each key to its slot, so
that looking up a key does not mean searching the slots. Keys are things that
are told apart by a number.

Key definitions: `Numbered`, `OrderedMap`, `entries`, `get?`, `insert`,
`insertIfNew`, `erase`. Key theorems: `keys_nodup`, `get?_eq_some_iff`: the map
has the entries that can be looked up, each key once.
-/

namespace AdventureLogic

/-- Things that are told apart by a number. -/
class Numbered (κ : Type) where
  number : κ → Nat
  number_inj : ∀ {a b : κ}, number a = number b → a = b

open Numbered (number number_inj)

instance : Numbered Nat := ⟨id, id⟩

instance : Numbered UInt32 := ⟨UInt32.toNat, UInt32.toNat_inj.1⟩

/-- A map from `κ` to `α` whose entries keep their order of arrival. -/
structure OrderedMap (κ α : Type) [Numbered κ] where
  /-- A slot for each key that arrived, oldest first. The slot of an erased key is empty. -/
  slots : Array (Option (κ × α))
  /-- The slot of each key, by its number. -/
  index : NatMap Nat
  /-- The number of entries. -/
  size : Nat
  /-- The index leads to the entries, and to all of them. -/
  indexed : ∀ (k : κ) (i : Nat),
    index.get? (number k) = some i ↔ ∃ v, slots[i]? = some (some (k, v))
  /-- Every slot that is not empty is an entry. -/
  size_eq : size = slots.countP Option.isSome

namespace OrderedMap

variable {κ α : Type} [Numbered κ]

/-- The map with no entries. -/
def empty : OrderedMap κ α where
  slots := #[]
  index := ∅
  size := 0
  indexed := by simp
  size_eq := by simp

instance : EmptyCollection (OrderedMap κ α) := ⟨empty⟩

instance : Inhabited (OrderedMap κ α) := ⟨empty⟩

/-- The entries, oldest first. -/
def entries (m : OrderedMap κ α) : List (κ × α) := m.slots.toList.filterMap id

/-- The keys, oldest first. -/
def keys (m : OrderedMap κ α) : List κ := m.entries.map Prod.fst

/-- The values, oldest first. -/
def values (m : OrderedMap κ α) : List α := m.entries.map Prod.snd

/-- The value of a key, if it has one. -/
def get? (m : OrderedMap κ α) (k : κ) : Option α :=
  (m.index.get? (number k)).bind fun i => m.slots[i]?.join.map Prod.snd

/-- Whether the key has a value. -/
def contains (m : OrderedMap κ α) (k : κ) : Bool := m.index.contains (number k)

theorem countP_isSome_modify (f : α → α) :
    ∀ (l : List (Option α)) (i : Nat),
      (l.modify i (Option.map f)).countP Option.isSome = l.countP Option.isSome
  | [], _ => by simp
  | a :: rest, 0 => by simp [List.countP_cons]
  | a :: rest, i + 1 => by simp [List.countP_cons, countP_isSome_modify f rest i]

/-- Changes the value of a key, if it has one. -/
def modify (m : OrderedMap κ α) (k : κ) (f : α → α) : OrderedMap κ α :=
  match m.index.get? (number k) with
  | none => m
  | some slot =>
    { slots := m.slots.modify slot (Option.map fun e => (e.1, f e.2))
      index := m.index
      size := m.size
      size_eq := by
        rw [m.size_eq, ← Array.countP_toList, ← Array.countP_toList, Array.toList_modify,
          countP_isSome_modify]
      indexed := by
        intro k' i
        rw [m.indexed, Array.getElem?_modify]
        split
        · constructor
          · rintro ⟨v, h⟩
            exact ⟨f v, by simp [h]⟩
          · rintro ⟨v, h⟩
            simp only [Option.map_eq_some_iff] at h
            obtain ⟨e, he, h'⟩ := h
            obtain ⟨e', rfl, h''⟩ := h'
            cases h''
            exact ⟨e'.2, he⟩
        · exact Iff.rfl }

/-- Gives a new key its value; a present key keeps the value it has. -/
def insertIfNew (m : OrderedMap κ α) (k : κ) (v : α) : OrderedMap κ α :=
  if h : m.contains k then m
  else
    let slot := m.slots.size
    { slots := m.slots.push (some (k, v))
      index := m.index.insert (number k) slot
      size := m.size + 1
      size_eq := by simp [m.size_eq]
      indexed := by
        intro k' i
        rw [NatMap.get?_insert, Array.getElem?_push]
        by_cases hk : k = k'
        · subst hk
          have new : m.index.get? (number k) = none := by
            simpa [contains, NatMap.contains] using h
          have absent : ¬ ∃ w, m.slots[i]? = some (some (k, w)) := by
            rw [← m.indexed, new]
            simp
          simp only [if_true, Option.some.injEq]
          constructor
          · rintro rfl
            exact ⟨v, by simp [slot]⟩
          · rintro ⟨w, hw⟩
            split at hw
            · exact Eq.symm (by assumption)
            · exact absurd ⟨w, hw⟩ absent
        · rw [if_neg fun e => hk (number_inj e), m.indexed]
          constructor
          · rintro ⟨w, hw⟩
            refine ⟨w, ?_⟩
            rw [if_neg, hw]
            rintro rfl
            simp at hw
          · rintro ⟨w, hw⟩
            split at hw
            · simp only [Option.some.injEq, Prod.mk.injEq] at hw
              exact absurd hw.1 hk
            · exact ⟨w, hw⟩ }

/-- Gives a key a value, in its old place if it has one. -/
def insert (m : OrderedMap κ α) (k : κ) (v : α) : OrderedMap κ α :=
  if m.contains k then m.modify k fun _ => v else m.insertIfNew k v

/-- Drops a key. -/
def erase (m : OrderedMap κ α) (k : κ) : OrderedMap κ α :=
  match h : m.index.get? (number k) with
  | none => m
  | some slot =>
    { slots := m.slots.setIfInBounds slot none
      index := m.index.erase (number k)
      size := m.size - 1
      size_eq := by
        obtain ⟨v, hv⟩ := (m.indexed k slot).1 h
        obtain ⟨hlt, hget⟩ := Array.getElem?_eq_some_iff.1 hv
        simp [m.size_eq, Array.setIfInBounds_def, hlt, Array.countP_set, hget]
      indexed := by
        intro k' i
        obtain ⟨v, hv⟩ := (m.indexed k slot).1 h
        rw [NatMap.get?_erase, Array.getElem?_setIfInBounds]
        by_cases hk : k = k'
        · subst hk
          rw [if_pos rfl]
          constructor
          · intro hn
            cases hn
          · rintro ⟨w, hw⟩
            split at hw
            · simp at hw
            · have := (m.indexed k i).2 ⟨w, hw⟩
              rw [h] at this
              cases this
              contradiction
        · rw [if_neg fun e => hk (number_inj e), m.indexed]
          constructor
          · rintro ⟨w, hw⟩
            refine ⟨w, ?_⟩
            rw [if_neg, hw]
            rintro rfl
            rw [hv] at hw
            cases hw
            exact hk rfl
          · rintro ⟨w, hw⟩
            split at hw
            · simp at hw
            · exact ⟨w, hw⟩ }

/-- The map that arises when the pairs are inserted one after the other. -/
def ofList (pairs : List (κ × α)) : OrderedMap κ α :=
  pairs.foldl (fun m p => m.insert p.1 p.2) empty

end OrderedMap

namespace OrderedMap

variable {κ α : Type} [Numbered κ]

theorem mem_entries_iff (m : OrderedMap κ α) (e : κ × α) :
    e ∈ m.entries ↔ ∃ i : Nat, m.slots[i]? = some (some e) := by
  simp only [entries, List.mem_filterMap, id_eq, exists_eq_right]
  rw [List.mem_iff_getElem?]
  simp

/-- No key stands twice. -/
theorem keys_nodup (m : OrderedMap κ α) : m.keys.Nodup := by
  rw [keys, entries, List.Nodup, List.pairwise_map]
  refine List.Pairwise.filterMap id (R := fun a b : Option (κ × α) =>
    ∀ e, a = some e → ∀ e', b = some e' → e.1 ≠ e'.1) ?_ ?_
  · intro a b h e he e' he'
    exact h e he e' he'
  · rw [List.pairwise_iff_getElem]
    intro i j hi hj hij e he e' he' heq
    have h₁ : m.index.get? (number e.1) = some i := (m.indexed e.1 i).2 ⟨e.2, by
      rw [Array.getElem?_eq_getElem (by simpa using hi)]
      simpa using he⟩
    have h₂ : m.index.get? (number e'.1) = some j := (m.indexed e'.1 j).2 ⟨e'.2, by
      rw [Array.getElem?_eq_getElem (by simpa using hj)]
      simpa using he'⟩
    rw [heq, h₂] at h₁
    cases h₁
    exact Nat.lt_irrefl _ hij

/-- Looking up finds the entries. -/
theorem get?_eq_some_iff (m : OrderedMap κ α) (k : κ) (v : α) :
    m.get? k = some v ↔ (k, v) ∈ m.entries := by
  rw [mem_entries_iff, get?]
  constructor
  · intro h
    obtain ⟨i, hi, h⟩ := Option.bind_eq_some_iff.1 h
    obtain ⟨w, hw⟩ := (m.indexed k i).1 hi
    refine ⟨i, ?_⟩
    simpa [hw] using h
  · rintro ⟨i, hi⟩
    have h := (m.indexed k i).2 ⟨v, hi⟩
    simp [h, hi]

end OrderedMap
end AdventureLogic
