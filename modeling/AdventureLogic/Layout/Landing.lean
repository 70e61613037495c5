import AdventureLogic.FiniteSet
import AdventureLogic.Layout.Fragment
import Std.Data.DTreeMap

/-!
# Where control lands

A fragment without code that goes straight on passes control to the next one,
so to enter it is to enter that one. Control lands at the first instruction it
meets. It does not land if it goes round in circles or leaves the logic without
meeting one.

The landings of all fragments are found in one sweep, in which every fragment
is looked at once.

Key definitions: `Fragment.entrance`, `Lands`, `Landings.ofFragments`. Key
theorem: `Lands.unique`: control lands in one place, after one number of
passes.
-/

namespace AdventureLogic
namespace Layout

/-- What control meets when it enters a fragment. -/
inductive Entrance where
  /-- An instruction. -/
  | stop (address : Address)
  /-- Nothing, and it goes on to `next`. -/
  | pass (next : BlockId)
  /-- Nothing, and it leaves the logic. -/
  | leave
  deriving DecidableEq, Inhabited

/-- What control meets when it enters a fragment. -/
def Fragment.entrance (f : Fragment) : Entrance :=
  match f.code with
  | i :: _ => .stop i.address
  | [] =>
    match f.ending with
    | .branch _ a _ _ _ => .stop a
    | .straight (some next) => .pass next
    | .straight none => .leave

/-- Control that enters block `n` lands at address `a` after `passes` passes. -/
inductive Lands (fragments : Fragments) :
    (passes : Nat) → (n : BlockId) → (a : Address) → Prop where
  | stop {n : BlockId} {f : Fragment} {a : Address} (hf : fragments.get? n = some f)
      (he : f.entrance = .stop a) : Lands fragments 0 n a
  | pass {k : Nat} {n next : BlockId} {f : Fragment} {a : Address}
      (hf : fragments.get? n = some f) (he : f.entrance = .pass next)
      (h : Lands fragments k next a) : Lands fragments (k + 1) n a

namespace Lands

variable {fragments : Fragments}

/-- **Control lands in one place**, after one number of passes. -/
theorem unique {j k : Nat} {n : BlockId} {a b : Address} (ha : Lands fragments j n a)
    (hb : Lands fragments k n b) : j = k ∧ a = b := by
  induction ha generalizing k with
  | stop hf he =>
    cases hb with
    | stop hf' he' =>
      rw [hf] at hf'
      cases hf'
      rw [he] at he'
      cases he'
      exact ⟨rfl, rfl⟩
    | pass hf' he' _ =>
      rw [hf] at hf'
      cases hf'
      rw [he] at he'
      cases he'
  | pass hf he _ ih =>
    cases hb with
    | stop hf' he' =>
      rw [hf] at hf'
      cases hf'
      rw [he] at he'
      cases he'
    | pass hf' he' h' =>
      rw [hf] at hf'
      cases hf'
      rw [he] at he'
      cases he'
      obtain ⟨rfl, rfl⟩ := ih h'
      exact ⟨rfl, rfl⟩

end Lands

/-- Where control lands that enters a block. -/
abbrev Landing (fragments : Fragments) (n : BlockId) : Type :=
  { a : Address // ∃ k, Lands fragments k n a }

/-- Where control lands, by block. -/
abbrev Landings (fragments : Fragments) : Type := Std.DTreeMap BlockId (Landing fragments)

namespace Landings

variable {fragments : Fragments}

/-- The landings found so far, and the blocks that have not been looked at. -/
structure Sweep (fragments : Fragments) where
  landings : Landings fragments := ∅
  unseen : Std.TreeSet BlockId

namespace Sweep

/-- Notes where control lands that enters a block. -/
def note (s : Sweep fragments) (n : BlockId) (l : Landing fragments n) : Sweep fragments :=
  { s with landings := s.landings.insert n l }

/-- Finds where control lands that enters a block. A block that has been looked at without a
landing has none, or is on the way to itself. -/
def land (s : Sweep fragments) (n : BlockId) : Option (Landing fragments n) × Sweep fragments :=
  if n ∈ s.unseen then
    let rest : Sweep fragments := { s with unseen := s.unseen.erase n }
    match hf : fragments.get? n with
    | none => (none, rest)
    | some f =>
      match he : f.entrance with
      | .leave => (none, rest)
      | .stop a =>
        let l : Landing fragments n := ⟨a, 0, .stop hf he⟩
        (some l, rest.note n l)
      | .pass next =>
        match rest.land next with
        | (none, after) => (none, after)
        | (some ⟨a, h⟩, after) =>
          let l : Landing fragments n := ⟨a, h.imp' Nat.succ fun _ h => .pass hf he h⟩
          (some l, after.note n l)
  else (s.landings.get? n, s)
termination_by s.unseen.size
decreasing_by exact FiniteSet.size_erase_lt (by assumption)

end Sweep

/-- The landings of all fragments. -/
def ofFragments (fragments : Fragments) : Landings fragments :=
  let start : Sweep fragments := { unseen := .ofList fragments.keys }
  (fragments.keys.foldl (fun s n => (s.land n).2) start).landings

end Landings
end Layout
end AdventureLogic
