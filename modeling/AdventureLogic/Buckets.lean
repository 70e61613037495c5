/-!
# Things by number

Things that are looked up by number again and again are put into an array once:
the bucket of a number holds what belongs to it, in order.

Key definitions: `Buckets.fill`, `Buckets.suffixes`. Key theorems:
`Buckets.getD_fill`, `Buckets.getD_suffixes`: the array has what a search would
find.
-/

namespace AdventureLogic
namespace Buckets

variable {α β : Type}

/-- The values of the elements of a list, by the number of the element, in order. Numbers from
`size` on have no bucket. -/
def fill (size : Nat) (number : α → Nat) (value : α → β) (l : List α) : Array (List β) :=
  l.foldr (fun x table => table.modify (number x) (value x :: ·)) (Array.replicate size [])

theorem size_fill (size : Nat) (number : α → Nat) (value : α → β) :
    ∀ l : List α, (fill size number value l).size = size
  | [] => by simp [fill]
  | x :: rest => by
    have ih := size_fill size number value rest
    unfold fill at ih ⊢
    rw [List.foldr_cons, Array.size_modify, ih]

/-- A bucket holds the values of the elements with its number. -/
theorem getD_fill {size n : Nat} (h : n < size) (number : α → Nat) (value : α → β) :
    ∀ l : List α, (fill size number value l).getD n [] =
      (l.filter fun x => number x = n).map value
  | [] => by simp [fill, h]
  | x :: rest => by
    have ih := getD_fill h number value rest
    have hs : n < (fill size number value rest).size := by rwa [size_fill]
    unfold fill at ih hs ⊢
    rw [List.foldr_cons, Array.getD_eq_getD_getElem?, Array.getElem?_modify]
    rw [Array.getD_eq_getD_getElem?, Array.getElem?_eq_getElem hs, Option.getD_some] at ih
    rw [Array.getElem?_eq_getElem hs]
    by_cases hn : number x = n
    · simp [hn, ih]
    · simp [hn, ih]

theorem getD_fill_of_le {size n : Nat} (h : size ≤ n) (number : α → Nat) (value : α → β)
    (l : List α) : (fill size number value l).getD n [] = [] := by
  have hs : ¬ n < (fill size number value l).size := by rw [size_fill]; omega
  simp [Array.getD, hs]

/-- What is left of a list after each number of elements. -/
def suffixes : List α → List (List α)
  | [] => []
  | x :: rest => (x :: rest) :: suffixes rest

/-- The suffix of a number is the list without so many elements. -/
theorem getD_suffixes : ∀ (l : List α) (n : Nat), (suffixes l).getD n [] = l.drop n
  | [], n => by simp [suffixes]
  | x :: rest, 0 => rfl
  | x :: rest, n + 1 => by
    rw [suffixes, List.getD_cons_succ, getD_suffixes rest n, List.drop_succ_cons]

end Buckets
end AdventureLogic
