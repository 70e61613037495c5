import AdventureLogic.Error
import AdventureLogic.Instruction
import AdventureLogic.Result
import Std.Data.TreeSet

/-!
# Handing out addresses

A pool knows which addresses are taken and hands out fresh ones. A fresh
address is one above the highest address taken so far.

A pool may also be worked on call by call; a call that fails leaves it as it
was.

Key definitions: `AddressPool.take`, `AddressPool.fresh`,
`AddressPool.ofInstructions`, `AddressPool.perform`. Key theorem:
`AddressPool.room_fresh`: every fresh address leaves less room, so only
finitely many can be had.
-/

namespace AdventureLogic

/-- The addresses taken so far, and the least one above all of them. -/
structure AddressPool where
  used : Std.TreeSet Address := ∅
  next : Address := 0
  deriving Inhabited

namespace AddressPool

/-- No address is taken. -/
def empty : AddressPool := {}

/-- Whether an address is taken. -/
def isUsed (pool : AddressPool) (a : Address) : Bool := pool.used.contains a

/-- Takes an address, if it is free. -/
def take (pool : AddressPool) (a : Address) : Except Error AddressPool :=
  if pool.isUsed a then .error (.conflictingAddress a)
  else .ok
    { used := pool.used.insert a
      next := if pool.next < a.succ then a.succ else pool.next }

/-- Takes the address above all those taken. Fails once the largest is taken. -/
def fresh (pool : AddressPool) : Except Error (Address × AddressPool) :=
  (pool.take pool.next).map fun taken => (pool.next, taken)

/-- The pool in which the addresses of some code are taken. Fails at the first one that stands
twice. -/
def ofInstructions (code : List Instruction) : Except Error AddressPool :=
  code.foldlM (fun pool i => pool.take i.address) empty

/-- What can be asked of a pool. -/
inductive Call where
  /-- Takes an address. -/
  | take (a : Address)
  /-- Hands out an address. -/
  | fresh
  /-- Whether an address is taken. -/
  | isUsed (a : Address)
  deriving DecidableEq, Inhabited

/-- What a pool answers. -/
inductive Answer where
  | done
  /-- The address that was handed out. -/
  | address (a : Address)
  | used (b : Bool)
  | fault (e : Error)
  deriving DecidableEq, Inhabited

/-- Takes a change over, if it could be made. -/
def change (pool : AddressPool) : Except Error (Answer × AddressPool) → Answer × AddressPool
  | .ok changed => changed
  | .error e => (.fault e, pool)

/-- Performs a call. -/
def perform (pool : AddressPool) : Call → Answer × AddressPool
  | .take a => pool.change ((pool.take a).map fun taken => (.done, taken))
  | .fresh => pool.change (pool.fresh.map fun r => (.address r.1, r.2))
  | .isUsed a => (.used (pool.isUsed a), pool)

/-- The pool after a sequence of calls. -/
def performAll (pool : AddressPool) (calls : List Call) : AddressPool :=
  calls.foldl (fun pool call => (pool.perform call).2) pool

/-- The answers to a sequence of calls. -/
def answers (pool : AddressPool) : List Call → List Answer
  | [] => []
  | call :: calls => (pool.perform call).1 :: (pool.perform call).2.answers calls

/-- How many fresh addresses can still be had, at most. -/
def room (pool : AddressPool) : Nat :=
  (Address.last.toNat - pool.next.toNat) + (if pool.isUsed Address.last then 0 else 1)

theorem toNat_succ {a : Address} (h : a ≠ Address.last) : a.succ.toNat = a.toNat + 1 := by
  have hlt : a.toNat < Address.last.toNat := by
    have hle : a.toNat < 4294967296 := a.toNat_lt
    have hne : a.toNat ≠ Address.last.toNat := fun e => h (UInt32.toNat_inj.1 e)
    have hlast : Address.last.toNat = 4294967295 := rfl
    omega
  have hlast : Address.last.toNat = 4294967295 := rfl
  have hone : (1 : Address).toNat = 1 := rfl
  rw [Address.succ, if_neg h, UInt32.toNat_add, hone]
  omega

/-- A fresh address takes room for one. -/
theorem room_of_fresh {pool taken : AddressPool} {a : Address} (h : pool.fresh = .ok (a, taken)) :
    taken.room + 1 = pool.room := by
  obtain ⟨p, hp, he⟩ := Result.map_eq_ok.1 h
  cases he
  unfold take at hp
  split at hp
  · cases hp
  · rename_i hfree
    cases hp
    by_cases hlast : pool.next = Address.last
    · have hfree' : pool.isUsed Address.last = false := by simpa [hlast] using hfree
      have hmem : Address.last ∉ pool.used := by
        intro hm
        rw [isUsed, show pool.used.contains Address.last = true from hm] at hfree'
        cases hfree'
      simp [room, isUsed, hlast, hmem, Address.succ]
    · have hsucc := toNat_succ hlast
      have hlt : pool.next < Address.succ pool.next := by
        rw [UInt32.lt_iff_toNat_lt, hsucc]
        omega
      have hle : pool.next.toNat < Address.last.toNat := by
        have h1 : pool.next.toNat < 4294967296 := pool.next.toNat_lt
        have h2 : pool.next.toNat ≠ Address.last.toNat := fun e => hlast (UInt32.toNat_inj.1 e)
        have h3 : Address.last.toNat = 4294967295 := rfl
        omega
      have hused : isUsed ⟨pool.used.insert pool.next, Address.succ pool.next⟩ Address.last
          = pool.isUsed Address.last := by
        simp [isUsed, hlast]
      rw [if_pos hlt]
      unfold room
      rw [hused, hsucc]
      omega

/-- A fresh address leaves less room than there was. -/
theorem room_fresh {pool taken : AddressPool} {a : Address} (h : pool.fresh = .ok (a, taken)) :
    taken.room < pool.room := by
  have hroom := room_of_fresh h
  omega

end AddressPool
end AdventureLogic
