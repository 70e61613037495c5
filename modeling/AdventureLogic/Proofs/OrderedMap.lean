import AdventureLogic.OrderedMap

/-!
# Laws of maps in insertion order

What the operations on an ordered map do to looking up, and which entries a map
made from a list has.

Key theorems: `OrderedMap.get?_insert`, `OrderedMap.get?_modify`,
`OrderedMap.get?_erase`, `OrderedMap.contains_ofList`, `OrderedMap.entries_ofList`,
`OrderedMap.entries_modify`.
-/

namespace AdventureLogic
namespace OrderedMap

open Numbered (number number_inj)

variable {κ α : Type} [Numbered κ]

theorem contains_eq_isSome_get? (m : OrderedMap κ α) (k : κ) :
    m.contains k = (m.get? k).isSome := by
  rw [contains, NatMap.contains, get?]
  cases h : m.index.get? (number k) with
  | none => rfl
  | some i =>
    obtain ⟨v, hv⟩ := (m.indexed k i).1 h
    simp [hv]

@[simp] theorem get?_empty_map (k : κ) : (∅ : OrderedMap κ α).get? k = none := rfl

theorem insertIfNew_of_contains {m : OrderedMap κ α} {k : κ} (h : m.contains k = true) (v : α) :
    m.insertIfNew k v = m := by
  rw [insertIfNew, dif_pos h]

/-- A new key goes to the end. -/
theorem entries_insertIfNew {m : OrderedMap κ α} {k : κ} (h : m.contains k = false) (v : α) :
    (m.insertIfNew k v).entries = m.entries ++ [(k, v)] := by
  have h' : ¬ m.contains k = true := by simp [h]
  rw [insertIfNew, dif_neg h']
  simp [entries, Array.toList_push, List.filterMap_append]

theorem get?_insertIfNew [DecidableEq κ] (m : OrderedMap κ α) (k k' : κ) (v : α) :
    (m.insertIfNew k v).get? k' =
      if k = k' ∧ m.contains k = false then some v else m.get? k' := by
  cases h : m.contains k with
  | true => simp [insertIfNew_of_contains h]
  | false =>
    have hnone : m.get? k = none := by
      rw [contains_eq_isSome_get?] at h
      simpa using h
    refine Option.ext fun w => ?_
    rw [get?_eq_some_iff, entries_insertIfNew h, List.mem_append, ← get?_eq_some_iff,
      List.mem_singleton, Prod.mk.injEq]
    by_cases hk : k = k'
    · subst hk
      simp [hnone, eq_comm]
    · simp [hk, Ne.symm hk]

/-- Different keys have different slots. -/
theorem slot_ne {m : OrderedMap κ α} {k k' : κ} {i j : Nat} (h : m.index.get? (number k) = some i)
    (h' : m.index.get? (number k') = some j) (hk : k ≠ k') : i ≠ j := by
  rintro rfl
  obtain ⟨v, hv⟩ := (m.indexed k i).1 h
  obtain ⟨w, hw⟩ := (m.indexed k' i).1 h'
  rw [hv] at hw
  cases hw
  exact hk rfl

theorem get?_modify [DecidableEq κ] (m : OrderedMap κ α) (k k' : κ) (f : α → α) :
    (m.modify k f).get? k' = if k = k' then (m.get? k').map f else m.get? k' := by
  unfold modify
  split
  · rename_i h
    by_cases hk : k = k'
    · subst hk
      simp [get?, h]
    · rw [if_neg hk]
  · rename_i slot h
    obtain ⟨v, hv⟩ := (m.indexed k slot).1 h
    by_cases hk : k = k'
    · subst hk
      simp [get?, h, Array.getElem?_modify, hv]
    · rw [if_neg hk]
      simp only [get?]
      cases h' : m.index.get? (number k') with
      | none => rfl
      | some i => simp [Array.getElem?_modify, slot_ne h h' hk]

/-- An inserted value is found, and the others stay. -/
theorem get?_insert [DecidableEq κ] (m : OrderedMap κ α) (k k' : κ) (v : α) :
    (m.insert k v).get? k' = if k = k' then some v else m.get? k' := by
  unfold insert
  cases h : m.contains k with
  | true =>
    rw [if_pos rfl, get?_modify]
    by_cases hk : k = k'
    · subst hk
      obtain ⟨w, hw⟩ := Option.isSome_iff_exists.1 (contains_eq_isSome_get? m k ▸ h)
      simp [hw]
    · simp [hk]
  | false =>
    rw [if_neg (by simp), get?_insertIfNew]
    simp [h]

/-- An erased key has no value, and the others keep theirs. -/
theorem get?_erase [DecidableEq κ] (m : OrderedMap κ α) (k k' : κ) :
    (m.erase k).get? k' = if k = k' then none else m.get? k' := by
  unfold erase
  split
  · rename_i h
    by_cases hk : k = k'
    · subst hk
      simp [get?, h]
    · rw [if_neg hk]
  · rename_i slot h
    by_cases hk : k = k'
    · subst hk
      simp [get?, NatMap.get?_erase]
    · rw [if_neg hk]
      simp only [get?, NatMap.get?_erase, if_neg fun e => hk (number_inj e)]
      cases h' : m.index.get? (number k') with
      | none => rfl
      | some i => simp [Array.getElem?_setIfInBounds, slot_ne h h' hk]

theorem contains_insert (m : OrderedMap κ α) (k k' : κ) (v : α) :
    (m.insert k v).contains k' ↔ k = k' ∨ m.contains k' := by
  classical
  rw [contains_eq_isSome_get?, get?_insert, contains_eq_isSome_get?]
  by_cases hk : k = k' <;> simp [hk]

theorem contains_foldl_insert (k : κ) :
    ∀ (pairs : List (κ × α)) (m : OrderedMap κ α),
      (pairs.foldl (fun m p => m.insert p.1 p.2) m).contains k ↔
        m.contains k ∨ k ∈ pairs.map Prod.fst
  | [], m => by simp
  | p :: rest, m => by
    rw [List.foldl_cons, contains_foldl_insert k rest, contains_insert, List.map_cons,
      List.mem_cons, eq_comm, or_assoc, or_left_comm]

/-- A map made from a list has the keys of the list. -/
theorem contains_ofList (pairs : List (κ × α)) (k : κ) :
    (ofList pairs).contains k ↔ k ∈ pairs.map Prod.fst := by
  rw [ofList, contains_foldl_insert]
  have hempty : (empty : OrderedMap κ α).contains k = false := rfl
  exact or_iff_right (by simp [hempty])

theorem entries_foldl_insert :
    ∀ (pairs : List (κ × α)) (m : OrderedMap κ α), (pairs.map Prod.fst).Nodup →
      (∀ k ∈ pairs.map Prod.fst, m.contains k = false) →
      (pairs.foldl (fun m p => m.insert p.1 p.2) m).entries = m.entries ++ pairs
  | [], m, _, _ => by simp
  | p :: rest, m, hn, hm => by
    rw [List.map_cons, List.nodup_cons] at hn
    have hp : m.contains p.1 = false := hm p.1 (by simp)
    have hrest : ∀ k ∈ rest.map Prod.fst, (m.insert p.1 p.2).contains k = false := by
      intro k hk
      have h1 : p.1 ≠ k := fun e => hn.1 (e ▸ hk)
      have h2 : m.contains k = false := hm k (by simp only [List.map_cons, List.mem_cons, hk, or_true])
      rw [← Bool.not_eq_true, contains_insert]
      simp [h1, h2]
    rw [List.foldl_cons, entries_foldl_insert rest _ hn.2 hrest, insert, if_neg (by simp [hp]),
      entries_insertIfNew hp, List.append_assoc]
    rfl

/-- A map made from a list with distinct keys has the entries of the list, in order. -/
theorem entries_ofList {pairs : List (κ × α)} (h : (pairs.map Prod.fst).Nodup) :
    (ofList pairs).entries = pairs := by
  rw [ofList, entries_foldl_insert pairs _ h]
  · rfl
  · intro k _
    rfl

theorem get?_ofList {pairs : List (κ × α)} (h : (pairs.map Prod.fst).Nodup) (k : κ) (v : α) :
    (ofList pairs).get? k = some v ↔ (k, v) ∈ pairs := by
  rw [get?_eq_some_iff, entries_ofList h]

/-- A changed value stays in its place. -/
theorem entries_modify [DecidableEq κ] (m : OrderedMap κ α) (k : κ) (f : α → α) :
    (m.modify k f).entries = m.entries.map fun e => if e.1 = k then (e.1, f e.2) else e := by
  -- the index leads to the slots that hold the key
  have hslot : ∀ i e, m.slots[i]? = some (some e) →
      (e.1 = k ↔ m.index.get? (number k) = some i) := by
    intro i e he
    constructor
    · rintro rfl
      exact (m.indexed e.1 i).2 ⟨e.2, he⟩
    · intro hk
      obtain ⟨v, hv⟩ := (m.indexed k i).1 hk
      rw [he] at hv
      cases hv
      rfl
  have hslots : (m.modify k f).slots.toList =
      m.slots.toList.map (Option.map fun e => if e.1 = k then (e.1, f e.2) else e) := by
    refine List.ext_getElem? fun i => ?_
    unfold modify
    cases hget : m.index.get? (number k) with
    | none =>
      rw [List.getElem?_map, Array.getElem?_toList]
      rcases hi : m.slots[i]? with _ | _ | e
      · simp
      · simp
      · have hne : e.1 ≠ k := fun he => by simpa [hget] using (hslot i e hi).1 he
        simp [hne]
    | some slot =>
      simp only [Array.toList_modify, List.getElem?_modify, List.getElem?_map,
        Array.getElem?_toList]
      rcases hi : m.slots[i]? with _ | _ | e
      · simp
      · simp
      · have hkey : e.1 = k ↔ slot = i := by simpa [hget] using hslot i e hi
        by_cases hs : slot = i
        · simp [hs, hkey.2 hs]
        · simp [hs, mt hkey.1 hs]
  rw [entries, hslots, List.filterMap_map, entries, List.map_filterMap]
  rfl

/-- Changing the value of the last key changes the last entry only. -/
theorem entries_modify_last {m : OrderedMap κ α} {before : List (κ × α)} {k : κ} {v : α}
    (h : m.entries = before ++ [(k, v)]) (f : α → α) :
    (m.modify k f).entries = before ++ [(k, f v)] := by
  classical
  have hother : ∀ e ∈ before, e.1 ≠ k := by
    have hkeys := m.keys_nodup
    rw [keys, h, List.map_append, List.nodup_append] at hkeys
    exact fun e he => hkeys.2.2 e.1 (List.mem_map_of_mem he) k (by simp)
  have hsame : (before.map fun e => if e.1 = k then (e.1, f e.2) else e) = before := by
    rw [List.map_congr_left fun e he => if_neg (hother e he), List.map_id']
  rw [entries_modify, h, List.map_append, hsame]
  simp

theorem contains_iff_mem_keys {m : OrderedMap κ α} {k : κ} : m.contains k = true ↔ k ∈ m.keys := by
  rw [contains_eq_isSome_get?, Option.isSome_iff_exists, keys, List.mem_map]
  constructor
  · rintro ⟨v, hv⟩
    exact ⟨(k, v), (m.get?_eq_some_iff k v).1 hv, rfl⟩
  · rintro ⟨e, he, rfl⟩
    exact ⟨e.2, (m.get?_eq_some_iff e.1 e.2).2 he⟩

/-- The size of a map is the number of its entries. -/
theorem size_eq_length_entries (m : OrderedMap κ α) : m.size = m.entries.length := by
  rw [m.size_eq, entries, ← Array.countP_toList]
  induction m.slots.toList with
  | nil => rfl
  | cons e rest ih => cases e <;> simp [ih]

end OrderedMap
end AdventureLogic
