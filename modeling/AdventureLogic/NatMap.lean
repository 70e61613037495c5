import Std.Data.TreeMap

/-!
# Maps from numbers

A finite map from numbers. Addresses and block numbers are mostly small and
close together, so the values of small numbers stand in an array; the others
are kept in a tree. What counts as small grows with the number of values that
were given, so that the array does not take more room than they are worth.

Key definitions: `NatMap`, `NatMap.get?`, `NatMap.insert`, `NatMap.erase`,
`NatSet`. Key theorems: `NatMap.get?_insert`, `NatMap.get?_erase`,
`NatSet.contains_ofList`.
-/

namespace AdventureLogic

/-- A finite map from numbers to `α`. -/
structure NatMap (α : Type) where
  /-- The values of small numbers. -/
  dense : Array (Option α) := #[]
  /-- The values of the other numbers. -/
  sparse : Std.TreeMap Nat α := ∅
  /-- How many values were given. -/
  given : Nat := 0

namespace NatMap

variable {α : Type}

instance : EmptyCollection (NatMap α) := ⟨{}⟩

instance : Inhabited (NatMap α) := ⟨∅⟩

/-- The value of a number, if it has one. -/
def get? (m : NatMap α) (k : Nat) : Option α := m.dense[k]?.join.or m.sparse[k]?

/-- Whether a number has a value. -/
def contains (m : NatMap α) (k : Nat) : Bool := (m.get? k).isSome

/-- From which number on the array is not widened. -/
def reach (m : NatMap α) : Nat := 16 * m.given + 16

/-- The array with room for `k`, if that is within reach. -/
@[inline] def widen (m : NatMap α) (k : Nat) : Array (Option α) :=
  if k < m.dense.size ∨ m.reach ≤ k then m.dense
  else m.dense ++ Array.replicate (min m.reach (2 * k + 2) - m.dense.size) none

/-- Gives a number a value. -/
def insert (m : NatMap α) (k : Nat) (v : α) : NatMap α :=
  let dense := m.widen k
  if k < dense.size then
    { dense := dense.setIfInBounds k (some v), sparse := m.sparse, given := m.given + 1 }
  else { dense := dense, sparse := m.sparse.insert k v, given := m.given + 1 }

/-- Takes the value of a number away. -/
def erase (m : NatMap α) (k : Nat) : NatMap α :=
  { m with dense := m.dense.setIfInBounds k none, sparse := m.sparse.erase k }

@[simp] theorem get?_empty (k : Nat) : (∅ : NatMap α).get? k = none := rfl

theorem join_getElem?_widen (m : NatMap α) (k k' : Nat) :
    (m.widen k)[k']?.join = m.dense[k']?.join := by
  unfold widen
  split
  · rfl
  · rw [Array.getElem?_append]
    split
    · rfl
    · rename_i h
      rw [Array.getElem?_replicate, Array.getElem?_eq_none (Nat.le_of_not_lt h)]
      split <;> rfl

/-- An inserted value is found, and the others stay. -/
theorem get?_insert (m : NatMap α) (k k' : Nat) (v : α) :
    (m.insert k v).get? k' = if k = k' then some v else m.get? k' := by
  unfold insert
  dsimp only
  split
  · rename_i h
    simp only [get?, Array.getElem?_setIfInBounds]
    by_cases hk : k = k'
    · simp [hk, hk ▸ h]
    · simp only [if_neg hk, join_getElem?_widen]
  · rename_i h
    simp only [get?, Std.TreeMap.getElem?_insert, join_getElem?_widen]
    by_cases hk : k = k'
    · subst hk
      have hd : m.dense[k]?.join = none := by
        rw [← join_getElem?_widen m k k, Array.getElem?_eq_none (Nat.le_of_not_lt h)]
        rfl
      simp [hd]
    · have hc : compare k k' ≠ .eq := fun e => hk (Std.LawfulEqCmp.eq_of_compare e)
      rw [if_neg hc, if_neg hk]

/-- An erased value is gone, and the others stay. -/
theorem get?_erase (m : NatMap α) (k k' : Nat) :
    (m.erase k).get? k' = if k = k' then none else m.get? k' := by
  simp only [erase, get?, Array.getElem?_setIfInBounds, Std.TreeMap.getElem?_erase]
  by_cases hk : k = k'
  · subst hk
    simp only [if_true, Std.compare_self]
    split <;> rfl
  · have hc : compare k k' ≠ .eq := fun e => hk (Std.LawfulEqCmp.eq_of_compare e)
    rw [if_neg hk, if_neg hc, if_neg hk]

/-- A number has a value if it was just given one or had one before. -/
theorem contains_insert (m : NatMap α) (k k' : Nat) (v : α) :
    (m.insert k v).contains k' = (k == k' || m.contains k') := by
  rw [contains, get?_insert, contains]
  by_cases h : k = k' <;> simp [h]

end NatMap

/-- A finite set of numbers. -/
abbrev NatSet := NatMap Unit

namespace NatSet

/-- The set of the numbers of a list. -/
def ofList (l : List Nat) : NatSet := l.foldl (fun s n => s.insert n ()) ∅

theorem contains_foldl_insert (n : Nat) :
    ∀ (l : List Nat) (s : NatSet),
      (l.foldl (fun s n => s.insert n ()) s).contains n = (s.contains n || l.contains n)
  | [], s => by simp
  | m :: rest, s => by
    rw [List.foldl_cons, contains_foldl_insert n rest, NatMap.contains_insert, List.contains_cons]
    rw [BEq.comm, ← Bool.or_assoc, Bool.or_comm (s.contains n)]

/-- The set has the numbers of the list. -/
@[simp] theorem contains_ofList (l : List Nat) (n : Nat) :
    (ofList l).contains n = l.contains n := by
  rw [ofList, contains_foldl_insert]
  rfl

end NatSet
end AdventureLogic
