import AdventureLogic.AddressPool
import AdventureLogic.Program.Basic
import Mathlib.Data.List.Perm.Subperm

/-!
# Which addresses are taken

Taking an address succeeds if it is free, and afterwards exactly that one is
taken besides those before. A fresh address was free. The pool of some code
exists if the addresses of the code are distinct.

Fresh addresses can be had as long as there is room for them. Those that a
sequence of steps takes are distinct, were free before and take as much room as
there are (`AddressPool.Takes`).

Key definitions: `AddressPool.Ascending`, `AddressPool.Takes`. Key theorems:
`AddressPool.isUsed_of_take`, `AddressPool.isUsed_of_fresh`,
`AddressPool.isUsed_ofInstructions`, `AddressPool.fresh_eq_error`.
-/

namespace AdventureLogic

/-- Distinct numbers below a bound are no more than the bound. -/
theorem length_le_of_forall_lt {ns : List Nat} {bound : Nat} (hn : ns.Nodup)
    (h : ∀ n ∈ ns, n < bound) : ns.length ≤ bound := by
  have hsubset : ns ⊆ List.range bound := fun n hmem => List.mem_range.2 (h n hmem)
  have hlength := (hn.subperm hsubset).length_le
  rwa [List.length_range] at hlength

namespace AddressPool

open Program (addresses)

theorem isUsed_insert (used : Std.TreeSet Address) (next a b : Address) :
    isUsed ⟨used.insert a, next⟩ b ↔ b = a ∨ used.contains b := by
  rw [isUsed, Std.TreeSet.contains_insert, Bool.or_eq_true, beq_iff_eq,
    Std.LawfulEqCmp.compare_eq_iff_eq, eq_comm]

theorem isUsed_of_take {pool taken : AddressPool} {a : Address} (h : pool.take a = .ok taken) :
    pool.isUsed a = false ∧ ∀ b, taken.isUsed b ↔ b = a ∨ pool.isUsed b := by
  unfold take at h
  split at h
  · cases h
  · rename_i hfree
    cases h
    exact ⟨by simpa using hfree, fun b => isUsed_insert _ _ a b⟩

/-- A fresh address was free, and it is the only one that is taken. -/
theorem isUsed_of_fresh {pool taken : AddressPool} {a : Address}
    (h : pool.fresh = .ok (a, taken)) :
    pool.isUsed a = false ∧ ∀ b, taken.isUsed b ↔ b = a ∨ pool.isUsed b := by
  obtain ⟨p, hp, he⟩ := Result.map_eq_ok.1 h
  cases he
  exact isUsed_of_take hp

@[simp] theorem isUsed_empty (a : Address) : empty.isUsed a = false := by
  simp [empty, isUsed]

theorem foldlM_take_eq_ok : ∀ {code : List Instruction} {pool taken : AddressPool},
    code.foldlM (fun pool i => pool.take i.address) pool = .ok taken →
      (addresses code).Nodup ∧ (∀ a ∈ addresses code, pool.isUsed a = false) ∧
        ∀ a, taken.isUsed a ↔ a ∈ addresses code ∨ pool.isUsed a
  | [], pool, taken, h => by
    cases h
    simp [addresses]
  | i :: rest, pool, taken, h => by
    obtain ⟨mid, hmid, h⟩ := Result.bind_eq_ok.1 h
    obtain ⟨hfree, hmid⟩ := isUsed_of_take hmid
    obtain ⟨hnodup, hrest, hused⟩ := foldlM_take_eq_ok h
    have hnot : ∀ a ∈ addresses rest, a ≠ i.address ∧ pool.isUsed a = false := by
      intro a ha
      have := hrest a ha
      rw [← Bool.not_eq_true, hmid, not_or] at this
      exact ⟨this.1, by simpa using this.2⟩
    refine ⟨?_, ?_, ?_⟩
    · rw [addresses, List.map_cons, List.nodup_cons]
      exact ⟨fun hm => (hnot _ hm).1 rfl, hnodup⟩
    · intro a ha
      rw [addresses, List.map_cons, List.mem_cons] at ha
      rcases ha with rfl | ha
      · exact hfree
      · exact (hnot a ha).2
    · intro a
      rw [hused, hmid, addresses, addresses, List.map_cons, List.mem_cons, or_left_comm, or_assoc]

/-- Code whose addresses can be taken one after the other has no address twice. -/
theorem nodup_of_ofInstructions {code : List Instruction} {pool : AddressPool}
    (h : ofInstructions code = .ok pool) : (addresses code).Nodup :=
  (foldlM_take_eq_ok h).1

/-- Taken are the addresses of the code. -/
theorem isUsed_ofInstructions {code : List Instruction} {pool : AddressPool}
    (h : ofInstructions code = .ok pool) (a : Address) :
    pool.isUsed a ↔ a ∈ addresses code := by
  rw [(foldlM_take_eq_ok h).2.2]
  simp

/-! ## Running out -/

/-- Every taken address is below the next one, unless the addresses have run out. -/
def Ascending (pool : AddressPool) : Prop :=
  ∀ a, pool.isUsed a → a < pool.next ∨ pool.next = Address.last

theorem ascending_empty : empty.Ascending := by
  intro a ha
  rw [isUsed_empty] at ha
  cases ha

theorem le_last (a : Address) : a ≤ Address.last := by
  have hlast : Address.last.toNat = 4294967295 := rfl
  have hlt : a.toNat < 4294967296 := a.toNat_lt
  rw [UInt32.le_iff_toNat_le]
  omega

theorem lt_succ_or_last (a : Address) : a < a.succ ∨ a.succ = Address.last := by
  by_cases h : a = Address.last
  · right
    rw [Address.succ, if_pos h, h]
  · left
    rw [UInt32.lt_iff_toNat_lt, toNat_succ h]
    omega

theorem ascending_take {pool taken : AddressPool} {a : Address} (hp : pool.Ascending)
    (h : pool.take a = .ok taken) : taken.Ascending := by
  have hused := (isUsed_of_take h).2
  have hnext : pool.next ≤ taken.next ∧ a.succ ≤ taken.next := by
    unfold take at h
    split at h
    · cases h
    · cases h
      dsimp only
      split
      · rename_i hlt
        exact ⟨UInt32.le_of_lt hlt, UInt32.le_refl _⟩
      · rename_i hle
        exact ⟨UInt32.le_refl _, UInt32.not_lt.1 hle⟩
  -- Once the largest address is reached, the next one stays there.
  have hgrow : ∀ {b next : Address}, b < next ∨ next = Address.last → next ≤ taken.next →
      b < taken.next ∨ taken.next = Address.last := by
    rintro b next (hlt | rfl) hle
    · exact .inl (UInt32.lt_of_lt_of_le hlt hle)
    · exact .inr (UInt32.le_antisymm (le_last _) hle)
  intro b hb
  rcases (hused b).1 hb with rfl | hb
  · exact hgrow (lt_succ_or_last b) hnext.2
  · exact hgrow (hp b hb) hnext.1

theorem ascending_fresh {pool taken : AddressPool} {a : Address} (hp : pool.Ascending)
    (h : pool.fresh = .ok (a, taken)) : taken.Ascending := by
  obtain ⟨p, htake, he⟩ := Result.map_eq_ok.1 h
  cases he
  exact ascending_take hp htake

theorem ascending_foldlM_take : ∀ {code : List Instruction} {pool taken : AddressPool},
    pool.Ascending → code.foldlM (fun pool i => pool.take i.address) pool = .ok taken →
      taken.Ascending
  | [], pool, taken, hp, h => by
    cases h
    exact hp
  | i :: rest, pool, taken, hp, h => by
    obtain ⟨mid, hmid, h⟩ := Result.bind_eq_ok.1 h
    exact ascending_foldlM_take (ascending_take hp hmid) h

theorem ascending_ofInstructions {code : List Instruction} {pool : AddressPool}
    (h : ofInstructions code = .ok pool) : pool.Ascending :=
  ascending_foldlM_take ascending_empty h

/-- **A fresh address can be had until the largest one is taken.** -/
theorem fresh_eq_error {pool : AddressPool} {e : Error} (hp : pool.Ascending)
    (h : pool.fresh = .error e) : e = .conflictingAddress Address.last ∧ pool.room = 0 := by
  unfold fresh take at h
  split at h
  · rename_i hused
    have hlast : pool.next = Address.last :=
      (hp _ hused).resolve_left (UInt32.lt_irrefl _)
    rw [hlast] at h hused
    cases h
    refine ⟨rfl, ?_⟩
    rw [room, hlast, if_pos hused, Nat.sub_self]
  · cases h

/-- From one pool to another the addresses of a list have been taken, all of them fresh. -/
structure Takes (pool taken : AddressPool) (as : List Address) : Prop where
  ascending : taken.Ascending
  room : taken.room + as.length = pool.room
  nodup : as.Nodup
  free : ∀ a ∈ as, pool.isUsed a = false
  used : ∀ a, taken.isUsed a ↔ a ∈ as ∨ pool.isUsed a

namespace Takes

variable {pool mid taken : AddressPool} {as bs : List Address}

theorem nil (h : pool.Ascending) : Takes pool pool [] := by
  refine ⟨h, rfl, .nil, fun a ha => ?_, fun a => ?_⟩
  · cases ha
  · simp

theorem fresh (hp : pool.Ascending) {a : Address} (h : pool.fresh = .ok (a, taken)) :
    Takes pool taken [a] := by
  obtain ⟨hfree, hused⟩ := isUsed_of_fresh h
  refine ⟨ascending_fresh hp h, room_of_fresh h, by simp, fun b hb => ?_, fun b => ?_⟩
  · rw [List.mem_singleton.1 hb]
    exact hfree
  · rw [hused, List.mem_singleton]

theorem not_mem_of_used (h : Takes pool taken as) {a : Address} (ha : pool.isUsed a = true) :
    a ∉ as := fun hmem => by
  rw [h.free a hmem] at ha
  cases ha

/-- Taking more addresses after some. -/
theorem append (h : Takes pool mid as) (h' : Takes mid taken bs) : Takes pool taken (as ++ bs) := by
  have hroom := h.room
  have hroom' := h'.room
  refine ⟨h'.ascending, ?_, ?_, fun a ha => ?_, fun a => ?_⟩
  · rw [List.length_append]
    omega
  · refine List.nodup_append.2 ⟨h.nodup, h'.nodup, fun a ha b hb heq => ?_⟩
    exact h'.not_mem_of_used ((h.used a).2 (.inl ha)) (heq ▸ hb)
  · rcases List.mem_append.1 ha with ha | ha
    · exact h.free a ha
    · have hfree := h'.free a ha
      rw [← Bool.not_eq_true, h.used, not_or] at hfree
      simpa using hfree.2
  · rw [h'.used, h.used, List.mem_append, or_left_comm, or_assoc]

end Takes

/-- The addresses of some code can be taken if no one stands twice. -/
theorem exists_foldlM_take : ∀ {code : List Instruction} {pool : AddressPool},
    (addresses code).Nodup → (∀ a ∈ addresses code, pool.isUsed a = false) →
      ∃ taken, code.foldlM (fun pool i => pool.take i.address) pool = .ok taken
  | [], pool, _, _ => ⟨pool, rfl⟩
  | i :: rest, pool, hn, hfree => by
    rw [addresses, List.map_cons, List.nodup_cons] at hn
    have hi : pool.isUsed i.address = false := hfree _ List.mem_cons_self
    obtain ⟨mid, hmid⟩ : ∃ mid, pool.take i.address = .ok mid := by
      unfold take
      rw [hi]
      exact ⟨_, rfl⟩
    have hrest : ∀ a ∈ addresses rest, mid.isUsed a = false := by
      intro a ha
      have hne : a ≠ i.address := fun e => hn.1 (e ▸ ha)
      have hold := hfree a (List.mem_cons_of_mem _ ha)
      rw [← Bool.not_eq_true, (isUsed_of_take hmid).2, hold]
      simpa using hne
    obtain ⟨taken, htaken⟩ := exists_foldlM_take hn.2 hrest
    exact ⟨taken, Result.bind_eq_ok.2 ⟨mid, hmid, htaken⟩⟩

/-- **The pool of some code exists exactly if no address stands twice.** -/
theorem exists_ofInstructions_iff {code : List Instruction} :
    (∃ pool, ofInstructions code = .ok pool) ↔ (addresses code).Nodup := by
  constructor
  · rintro ⟨pool, h⟩
    exact nodup_of_ofInstructions h
  · exact fun hn => exists_foldlM_take hn fun a _ => isUsed_empty a

/-! ## Counting -/

theorem room_empty : empty.room = 4294967296 := rfl

/-- A taken address and the room that is left fit below the number of addresses. -/
theorem toNat_add_room_lt {pool : AddressPool} (hp : pool.Ascending) {a : Address}
    (ha : pool.isUsed a = true) : a.toNat + pool.room < 4294967296 := by
  have hlast : Address.last.toNat = 4294967295 := rfl
  have hbound : a.toNat < 4294967296 := a.toNat_lt
  have hnext : pool.next.toNat < 4294967296 := pool.next.toNat_lt
  unfold room
  rcases hp a ha with hlt | heq
  · rw [UInt32.lt_iff_toNat_lt] at hlt
    split <;> omega
  · rw [heq, Nat.sub_self, Nat.zero_add]
    split
    · exact hbound
    · rename_i hfree
      have hne : a.toNat ≠ Address.last.toNat := fun hsame => hfree (UInt32.toNat_inj.1 hsame ▸ ha)
      omega

/-- **Taken addresses and the room that is left** are no more than there are addresses. -/
theorem length_add_room_le {pool : AddressPool} (hp : pool.Ascending) {as : List Address}
    (hn : as.Nodup) (hused : ∀ a ∈ as, pool.isUsed a = true) :
    as.length + pool.room ≤ 4294967296 := by
  have hnodup : (as.map UInt32.toNat).Nodup :=
    List.Pairwise.map _ (fun a b hne heq => hne (UInt32.toNat_inj.1 heq)) hn
  have hlength : (as.map UInt32.toNat).length ≤ 4294967296 - pool.room := by
    refine length_le_of_forall_lt hnodup fun n hmem => ?_
    obtain ⟨a, ha, rfl⟩ := List.mem_map.1 hmem
    have hlt := toNat_add_room_lt hp (hused a ha)
    omega
  rw [List.length_map] at hlength
  have hroom : pool.room ≤ 4294967296 := by
    have hlast : Address.last.toNat = 4294967295 := rfl
    unfold room
    split <;> omega
  omega

theorem next_foldlM_take {bound : Address} : ∀ {code : List Instruction} {pool taken : AddressPool},
    pool.next ≤ bound → (∀ a ∈ addresses code, a.succ ≤ bound) →
    code.foldlM (fun pool i => pool.take i.address) pool = .ok taken → taken.next ≤ bound
  | [], pool, taken, hp, _, h => by
    cases h
    exact hp
  | i :: rest, pool, taken, hp, hcode, h => by
    obtain ⟨mid, hmid, h⟩ := Result.bind_eq_ok.1 h
    obtain ⟨hi, hrest⟩ := List.forall_mem_cons.1 hcode
    refine next_foldlM_take ?_ hrest h
    have hmid : pool.take i.address = .ok mid := hmid
    unfold take at hmid
    split at hmid
    · cases hmid
    · cases hmid
      dsimp only
      split
      · exact hi
      · exact hp

/-- **The pool of some code has as much room** as any pool in which its addresses are taken. -/
theorem room_le_ofInstructions {pool taken : AddressPool} (hp : pool.Ascending)
    {code : List Instruction} (hused : ∀ a ∈ addresses code, pool.isUsed a = true)
    (h : ofInstructions code = .ok taken) : pool.room ≤ taken.room := by
  have hnext : taken.next ≤ pool.next := by
    refine next_foldlM_take (UInt32.le_iff_toNat_le.2 (Nat.zero_le _)) (fun a ha => ?_) h
    rcases hp a (hused a ha) with hlt | heq
    · have hne : a ≠ Address.last := fun hlast =>
        UInt32.not_lt.2 (le_last pool.next) (hlast ▸ hlt)
      rw [UInt32.lt_iff_toNat_lt] at hlt
      rw [UInt32.le_iff_toNat_le, toNat_succ hne]
      omega
    · rw [heq]
      exact le_last _
  rw [UInt32.le_iff_toNat_le] at hnext
  unfold room
  by_cases hlast : taken.isUsed Address.last = true
  · have hold := hused _ ((isUsed_ofInstructions h _).1 hlast)
    rw [if_pos hlast, if_pos hold]
    omega
  · rw [if_neg hlast]
    split <;> omega

end AddressPool
end AdventureLogic
