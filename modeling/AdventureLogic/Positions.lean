import AdventureLogic.Instruction
import AdventureLogic.NatMap

/-!
# Positions

Jumps name addresses, but control runs through positions: where an address
stands is looked up in a map made once for all of the code.

Key definition: `positionsOf`. Key theorem: `get?_positionsOf_eq_some_iff`: the
map leads to the last instruction with an address.
-/

namespace AdventureLogic

/-- Where each instruction stands, by address. Of two with one address the later counts. -/
def positionsOf (code : List Instruction) : NatMap Nat :=
  code.zipIdx.foldl (fun m p => m.insert p.1.address.toNat p.2) ∅

theorem get?_positionsOf_concat (code : List Instruction) (i : Instruction) (a : Address) :
    (positionsOf (code ++ [i])).get? a.toNat =
      if i.address = a then some code.length else (positionsOf code).get? a.toNat := by
  simp only [positionsOf, List.zipIdx_append, List.zipIdx_singleton, List.foldl_append,
    List.foldl_cons, List.foldl_nil, NatMap.get?_insert, UInt32.toNat_inj, Nat.zero_add]

/-- An address leads to the last instruction that has it. -/
theorem get?_positionsOf_eq_some_iff (code : List Instruction) (a : Address) (n : Nat) :
    (positionsOf code).get? a.toNat = some n ↔
      code[n]?.map Instruction.address = some a ∧
        ∀ m, n < m → code[m]?.map Instruction.address ≠ some a := by
  obtain ⟨l, rfl⟩ : ∃ l, code = List.reverse l := ⟨code.reverse, by simp⟩
  induction l with
  | nil => simp [positionsOf]
  | cons i l ih =>
    rw [List.reverse_cons]
    generalize l.reverse = before at ih
    rw [get?_positionsOf_concat]
    by_cases h : i.address = a
    · rw [if_pos h, Option.some.injEq]
      constructor
      · rintro rfl
        refine ⟨by simp [h], fun m hm => ?_⟩
        rw [List.getElem?_eq_none (by simpa using Nat.succ_le_of_lt hm)]
        simp
      · rintro ⟨hn, hlast⟩
        rcases Nat.lt_trichotomy before.length n with hlt | heq | hgt
        · rw [List.getElem?_eq_none (by simpa using Nat.succ_le_of_lt hlt)] at hn
          cases hn
        · exact heq
        · exact absurd (by simp [h]) (hlast before.length hgt)
    · rw [if_neg h, ih]
      have hget : ∀ m : Nat, (before ++ [i])[m]?.map Instruction.address = some a ↔
          before[m]?.map Instruction.address = some a := by
        intro m
        rcases Nat.lt_trichotomy before.length m with hlt | heq | hgt
        · rw [List.getElem?_eq_none (by simpa using Nat.succ_le_of_lt hlt),
            List.getElem?_eq_none (Nat.le_of_lt hlt)]
        · subst heq
          simp [h]
        · rw [List.getElem?_append_left hgt]
      simp only [ne_eq, hget]

/-- An address has a position if some instruction has it. -/
theorem contains_positionsOf (code : List Instruction) (a : Address) :
    (positionsOf code).contains a.toNat ↔ a ∈ code.map Instruction.address := by
  obtain ⟨l, rfl⟩ : ∃ l, code = List.reverse l := ⟨code.reverse, by simp⟩
  induction l with
  | nil => simp [positionsOf, NatMap.contains]
  | cons i l ih =>
    rw [List.reverse_cons, NatMap.contains, get?_positionsOf_concat, List.map_append,
      List.mem_append, ← ih]
    by_cases h : i.address = a
    · simp [h]
    · simp [h, Ne.symm h, NatMap.contains]

end AdventureLogic
