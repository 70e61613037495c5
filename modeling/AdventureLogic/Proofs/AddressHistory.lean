import Mathlib
import AdventureLogic.Proofs.AddressPool

/-!
# No address is handed out twice

What a pool answers is decided by the addresses that have been taken or handed
out so far. The pool does not look for the largest of them; it keeps the
address after it, which stays where it is once the largest address there is has
been taken (`AddressPool.HasTaken`). As long as that one is free, the address
that is kept is right above all taken ones (`AddressPool.IsNext`); afterwards it
is taken itself, and no more are handed out.

Key definitions: `AddressPool.taken`, `AddressPool.IsNext`,
`AddressPool.HasTaken`. Key theorems: `AddressPool.HasTaken.perform`,
`AddressPool.HasTaken.performAll`, `AddressPool.answers_by_history`.
-/

namespace AdventureLogic
namespace AddressPool

open Program (addresses)

/-! ## What has been taken -/

/-- The address that a call has taken, by the answer to it. -/
def Call.taken? : Call → Answer → Option Address
  | .take a, .done => some a
  | .fresh, .address a => some a
  | _, _ => none

/-- The addresses that calls take, in their order. -/
def taken (pool : AddressPool) : List Call → List Address
  | [] => []
  | call :: calls =>
    (call.taken? (pool.perform call).1).toList ++ (pool.perform call).2.taken calls

/-- How a pool is made, with the addresses that are taken in it. -/
inductive Starts : AddressPool → List Address → Prop where
  | empty : Starts .empty []
  | code {code : List Instruction} {pool : AddressPool} (h : ofInstructions code = .ok pool) :
    Starts pool (addresses code)

/-- The address right above all those of a list; the first one if there are none. -/
structure IsNext (used : List Address) (a : Address) : Prop where
  above : ∀ b ∈ used, b < a
  least : used = [] ∧ a = 0 ∨ ∃ b ∈ used, a.toNat = b.toNat + 1

namespace IsNext

variable {used : List Address} {a b : Address}

theorem unique (ha : IsNext used a) (hb : IsNext used b) : a = b := by
  rcases ha.least with ⟨hnil, rfl⟩ | ⟨c, hc, hac⟩
  · rcases hb.least with ⟨_, rfl⟩ | ⟨d, hd, _⟩
    · rfl
    · rw [hnil] at hd
      cases hd
  · rcases hb.least with ⟨hnil, _⟩ | ⟨d, hd, hbd⟩
    · rw [hnil] at hc
      cases hc
    · have hda := UInt32.lt_iff_toNat_lt.1 (ha.above d hd)
      have hcb := UInt32.lt_iff_toNat_lt.1 (hb.above c hc)
      exact UInt32.toNat_inj.1 (by omega)

/-- Above the largest address there is none. -/
theorem last_notMem (ha : IsNext used a) : Address.last ∉ used := fun hlast =>
  UInt32.not_lt.2 (le_last a) (ha.above _ hlast)

end IsNext

/-- The addresses of a list are taken, and what comes next is the first address or follows one of
them. -/
structure HasTaken (used : List Address) (pool : AddressPool) : Prop where
  ascending : pool.Ascending
  isUsed : ∀ a, pool.isUsed a ↔ a ∈ used
  next : pool.next = 0 ∨ ∃ b ∈ used, pool.next = b.succ

namespace HasTaken

variable {used : List Address} {pool taken : AddressPool} {a : Address}

theorem empty : HasTaken [] .empty :=
  ⟨ascending_empty, fun a => by simp, .inl rfl⟩

/-- One more address is taken. -/
theorem take (h : HasTaken used pool) (htake : pool.take a = .ok taken) :
    HasTaken (used ++ [a]) taken := by
  refine ⟨ascending_take h.ascending htake, fun b => ?_, ?_⟩
  · rw [(isUsed_of_take htake).2, h.isUsed, List.mem_append, List.mem_singleton, or_comm]
  · unfold AddressPool.take at htake
    split at htake
    · cases htake
    · cases htake
      dsimp only
      split
      · exact .inr ⟨a, by simp, rfl⟩
      · exact h.next.imp_right fun ⟨b, hb, hnext⟩ => ⟨b, List.mem_append_left _ hb, hnext⟩

/-- The pool of some code is made by taking its addresses one after the other. -/
theorem foldlM_take : ∀ {code : List Instruction} {used : List Address} {pool taken : AddressPool},
    HasTaken used pool → code.foldlM (fun pool i => pool.take i.address) pool = .ok taken →
      HasTaken (used ++ addresses code) taken
  | [], used, pool, taken, h, htaken => by
    cases htaken
    rwa [addresses, List.map_nil, List.append_nil]
  | i :: rest, used, pool, taken, h, htaken => by
    obtain ⟨mid, hmid, hrest⟩ := Result.bind_eq_ok.1 htaken
    have hall := (h.take hmid).foldlM_take hrest
    rwa [List.append_assoc, List.singleton_append] at hall

theorem starts (h : Starts pool used) : HasTaken used pool := by
  cases h with
  | empty => exact empty
  | code hcode => exact empty.foldlM_take hcode

/-! ## One call -/

theorem perform_take_of_mem (h : HasTaken used pool) (ha : a ∈ used) :
    pool.perform (.take a) = (.fault (.conflictingAddress a), pool) := by
  have htake : pool.take a = .error (.conflictingAddress a) := if_pos ((h.isUsed a).2 ha)
  rw [AddressPool.perform, htake]
  rfl

theorem perform_take_of_notMem (h : HasTaken used pool) (ha : a ∉ used) :
    ∃ taken, pool.take a = .ok taken ∧ pool.perform (.take a) = (.done, taken) := by
  have hfree : ¬pool.isUsed a := fun hused => ha ((h.isUsed a).1 hused)
  have htake : ∃ taken, pool.take a = .ok taken := ⟨_, if_neg hfree⟩
  obtain ⟨taken, htake⟩ := htake
  refine ⟨taken, htake, ?_⟩
  rw [AddressPool.perform, htake]
  rfl

/-- Once the largest address is taken, it is the one that would come next. -/
theorem perform_fresh_of_mem (h : HasTaken used pool) (hlast : Address.last ∈ used) :
    pool.perform .fresh = (.fault (.conflictingAddress Address.last), pool) := by
  have hused := (h.isUsed _).2 hlast
  have hnext : pool.next = Address.last :=
    (h.ascending _ hused).resolve_left (UInt32.not_lt.2 (le_last _))
  have hfresh : pool.fresh = .error (.conflictingAddress Address.last) := by
    rw [fresh, hnext, AddressPool.take, if_pos hused]
    rfl
  rw [AddressPool.perform, hfresh]
  rfl

/-- As long as the largest address is free, the next one is right above all taken ones. -/
theorem isNext (h : HasTaken used pool) (hlast : Address.last ∉ used) : IsNext used pool.next := by
  have habove : ∀ b ∈ used, b < pool.next := by
    intro b hb
    rcases h.ascending b ((h.isUsed b).2 hb) with hlt | heq
    · exact hlt
    · have hne : b ≠ Address.last := fun hsame => hlast (hsame ▸ hb)
      rw [heq]
      exact UInt32.lt_of_le_of_ne (le_last b) hne
  refine ⟨habove, ?_⟩
  rcases h.next with hzero | ⟨b, hb, hnext⟩
  · refine .inl ⟨List.eq_nil_iff_forall_not_mem.2 fun b hb => ?_, hzero⟩
    have hlt := UInt32.lt_iff_toNat_lt.1 (hzero ▸ habove b hb)
    exact Nat.not_lt_zero _ hlt
  · have hne : b ≠ Address.last := fun hsame => hlast (hsame ▸ hb)
    exact .inr ⟨b, hb, hnext ▸ toNat_succ hne⟩

theorem perform_fresh_of_notMem (h : HasTaken used pool) (hlast : Address.last ∉ used) :
    ∃ taken, pool.take pool.next = .ok taken ∧
      pool.perform .fresh = (.address pool.next, taken) := by
  have hfree : pool.next ∉ used := fun hmem => UInt32.lt_irrefl _ ((h.isNext hlast).above _ hmem)
  obtain ⟨taken, htake, _⟩ := h.perform_take_of_notMem hfree
  have hfresh : pool.fresh = .ok (pool.next, taken) := by
    rw [fresh, htake]
    rfl
  refine ⟨taken, htake, ?_⟩
  rw [AddressPool.perform, hfresh]
  rfl

/-- **A call takes at most the address that it answers with.** -/
theorem perform (h : HasTaken used pool) (call : Call) :
    HasTaken (used ++ (call.taken? (pool.perform call).1).toList) (pool.perform call).2 := by
  have hsame : HasTaken (used ++ (none : Option Address).toList) pool := by simpa using h
  cases call with
  | take a =>
    by_cases ha : a ∈ used
    · rw [h.perform_take_of_mem ha]
      exact hsame
    · obtain ⟨taken, htake, hperform⟩ := h.perform_take_of_notMem ha
      rw [hperform]
      exact h.take htake
  | fresh =>
    by_cases hlast : Address.last ∈ used
    · rw [h.perform_fresh_of_mem hlast]
      exact hsame
    · obtain ⟨taken, htake, hperform⟩ := h.perform_fresh_of_notMem hlast
      rw [hperform]
      exact h.take htake
  | isUsed a => exact hsame

/-! ## All calls -/

/-- **Calls take the addresses that they answer with**, and no others. -/
theorem performAll : ∀ (calls : List Call) {used : List Address} {pool : AddressPool},
    HasTaken used pool → HasTaken (used ++ pool.taken calls) (pool.performAll calls)
  | [], used, pool, h => by rwa [AddressPool.taken, List.append_nil]
  | call :: calls, used, pool, h => by
    have hall := (h.perform call).performAll calls
    rwa [List.append_assoc] at hall

theorem perform_take_eq_fault_iff (h : HasTaken used pool) (a : Address) :
    (pool.perform (.take a)).1 = .fault (.conflictingAddress a) ↔ a ∈ used := by
  by_cases ha : a ∈ used
  · simp [h.perform_take_of_mem ha, ha]
  · obtain ⟨taken, _, hperform⟩ := h.perform_take_of_notMem ha
    simp [hperform, ha]

theorem perform_take_eq_done_iff (h : HasTaken used pool) (a : Address) :
    (pool.perform (.take a)).1 = .done ↔ a ∉ used := by
  by_cases ha : a ∈ used
  · simp [h.perform_take_of_mem ha, ha]
  · obtain ⟨taken, _, hperform⟩ := h.perform_take_of_notMem ha
    simp [hperform, ha]

theorem perform_fresh_eq_fault_iff (h : HasTaken used pool) :
    (∃ e, (pool.perform .fresh).1 = .fault e) ↔ Address.last ∈ used := by
  by_cases hlast : Address.last ∈ used
  · simp [h.perform_fresh_of_mem hlast, hlast]
  · obtain ⟨taken, _, hperform⟩ := h.perform_fresh_of_notMem hlast
    simp [hperform, hlast]

/-- An address is handed out exactly if it is right above all taken ones. -/
theorem perform_fresh_eq_address_iff (h : HasTaken used pool) (a : Address) :
    (pool.perform .fresh).1 = .address a ↔ IsNext used a := by
  by_cases hlast : Address.last ∈ used
  · rw [h.perform_fresh_of_mem hlast]
    constructor
    · intro heq
      cases heq
    · exact fun hnext => absurd hlast hnext.last_notMem
  · obtain ⟨taken, _, hperform⟩ := h.perform_fresh_of_notMem hlast
    rw [hperform]
    constructor
    · intro heq
      cases heq
      exact h.isNext hlast
    · exact fun hnext => congrArg Answer.address ((h.isNext hlast).unique hnext)

end HasTaken

/-- A call that fails leaves the pool as it was. -/
theorem perform_of_fault {pool : AddressPool} {call : Call} {e : Error}
    (h : (pool.perform call).1 = .fault e) : (pool.perform call).2 = pool := by
  cases call with
  | take a =>
    rw [perform] at h ⊢
    cases htake : pool.take a with
    | ok taken =>
      rw [htake] at h
      cases h
    | error e => rfl
  | fresh =>
    rw [perform] at h ⊢
    cases hfresh : pool.fresh with
    | ok r =>
      rw [hfresh] at h
      cases h
    | error e => rfl
  | isUsed a => rfl

/-- **What has been taken decides what is answered.** Take a new pool or the pool of some code,
after any calls, failed ones among them. The addresses that are used are those of the code and those
that were taken or handed out. An address can be taken exactly if it is not used, and the fault names it
otherwise. The address that is handed out is the one right above all used ones, the first one if
there are none; none is handed out exactly if the largest address is used. A call that fails changes
no later answer. -/
theorem answers_by_history (pool : AddressPool) (first : List Address) (hstart : Starts pool first)
    (calls : List Call) :
    (∀ a, (pool.performAll calls).isUsed a ↔ a ∈ first ++ pool.taken calls) ∧
    (∀ a, ((pool.performAll calls).perform (.take a)).1 = .fault (.conflictingAddress a) ↔
      a ∈ first ++ pool.taken calls) ∧
    (∀ a, ((pool.performAll calls).perform (.take a)).1 = .done ↔
      a ∉ first ++ pool.taken calls) ∧
    (∀ a, ((pool.performAll calls).perform .fresh).1 = .address a ↔
      IsNext (first ++ pool.taken calls) a) ∧
    ((∃ e, ((pool.performAll calls).perform .fresh).1 = .fault e) ↔
      4294967295 ∈ first ++ pool.taken calls) ∧
    ∀ call e, ((pool.performAll calls).perform call).1 = .fault e → ∀ later,
      ((pool.performAll calls).perform call).2.answers later =
        (pool.performAll calls).answers later := by
  have h := (HasTaken.starts hstart).performAll calls
  refine ⟨h.isUsed, h.perform_take_eq_fault_iff, h.perform_take_eq_done_iff,
    h.perform_fresh_eq_address_iff, h.perform_fresh_eq_fault_iff, fun call e hfault later => ?_⟩
  rw [perform_of_fault hfault]

/-- Code with a goto to itself, in the middle of the addresses. -/
def lonelyGoto : List Instruction := [.goto 7 7]

/-- Calls that take addresses out of order up to the largest; two of them fail. -/
def outOfOrder : List Call :=
  [.take 7, .fresh, .take 4294967294, .take 3, .fresh, .fresh]

theorem answers_by_history_outOfOrder :
    ∃ pool, ofInstructions lonelyGoto = .ok pool ∧
      pool.answers outOfOrder = [.fault (.conflictingAddress 7), .address 8, .done, .done,
        .address 4294967295, .fault (.conflictingAddress 4294967295)] ∧
      pool.taken outOfOrder = [8, 4294967294, 3, 4294967295] ∧
      ((pool.performAll outOfOrder).perform (.take 8)).1 = .fault (.conflictingAddress 8) ∧
      ((pool.performAll outOfOrder).perform (.take 9)).1 = .done ∧
      (∃ e, ((pool.performAll outOfOrder).perform .fresh).1 = .fault e) ∧
      ((pool.performAll [.take 7, .fresh]).perform .fresh).1 = .address 9 ∧
      (empty.perform .fresh).1 = .address 0 := by
  have hrun : (ofInstructions lonelyGoto).map (fun pool =>
      (pool.answers outOfOrder, pool.taken outOfOrder, pool.taken [.take 7, .fresh])) =
      .ok ([.fault (.conflictingAddress 7), .address 8, .done, .done, .address 4294967295,
        .fault (.conflictingAddress 4294967295)], [8, 4294967294, 3, 4294967295], [8]) := by
    decide +kernel
  obtain ⟨pool, hpool, hrun⟩ := Result.map_eq_ok.1 hrun
  simp only [Prod.mk.injEq] at hrun
  obtain ⟨hanswers, htaken, hshort⟩ := hrun
  obtain ⟨_, hconflict, hdone, _, hfull, _⟩ := answers_by_history pool _ (.code hpool) outOfOrder
  obtain ⟨_, _, _, hfresh, _⟩ := answers_by_history pool _ (.code hpool) [.take 7, .fresh]
  obtain ⟨_, _, _, hfirst, _⟩ := answers_by_history empty [] .empty []
  rw [htaken] at hconflict hdone hfull
  rw [hshort] at hfresh
  have hcode : addresses lonelyGoto = [7] := rfl
  rw [hcode] at hconflict hdone hfull hfresh
  refine ⟨pool, hpool, hanswers, htaken, (hconflict 8).2 (by simp), (hdone 9).2 (by simp),
    hfull.2 (by simp), (hfresh 9).2 ⟨?_, .inr ⟨8, by simp, rfl⟩⟩,
    (hfirst 0).2 ⟨fun b hb => ?_, .inl ⟨rfl, rfl⟩⟩⟩
  · simp
  · cases hb

end AddressPool
end AdventureLogic
