import AdventureLogic.Proofs.Bytecode.Assemble

/-!
# When code can be assembled

An instruction can be written if its arguments fit into bytes and, for a
condition, if it has a skip target. Such instructions with distinct addresses
can be placed, each right after the one before it. Code that has been placed
can be assembled exactly if every jump leads to an instruction of the code and
no jump is longer than a word can say.

Key definitions: `Instruction.Writable`, `Bytecode.offsetAt`, `Bytecode.LongJump`.
Key theorems: `Bytecode.exists_place_iff`, `Bytecode.exists_assemble_iff`,
`Bytecode.assemble_eq_error`.
-/

namespace AdventureLogic

open Program (addresses)

/-- The arguments of the test can be written: a byte counts them, or each of them is a byte. -/
def Test.Writable (set : CommandSet) (t : Test) : Prop :=
  match set.testArity? t.opcode with
  | some .counted => t.args.length ≤ 255
  | _ => ∀ v ∈ t.args, v.toNat ≤ 255

theorem Test.writable_of_counted {set : CommandSet} {t : Test}
    (harity : set.testArity? t.opcode = some .counted) (h : t.args.length ≤ 255) :
    t.Writable set := by
  rw [Test.Writable, harity]
  exact h

theorem Test.writable_of_fixed {set : CommandSet} {t : Test} {count : Nat}
    (harity : set.testArity? t.opcode = some (.fixed count)) (h : ∀ v ∈ t.args, v.toNat ≤ 255) :
    t.Writable set := by
  rw [Test.Writable, harity]
  exact h

/-- The tests of the clause can be written. -/
def Clause.Writable (set : CommandSet) : Clause → Prop
  | .test t => t.Writable set
  | .anyOf ts => ∀ t ∈ ts, t.Writable set

/-- The instruction can be written: a condition has a skip target and clauses that can be. -/
def Instruction.Writable (set : CommandSet) : Instruction → Prop
  | .condition _ clauses skip => skip.isSome ∧ ∀ clause ∈ clauses, clause.Writable set
  | _ => True

namespace Bytecode

variable {set : CommandSet}

/-! ### Single instructions -/

theorem exists_encodeTest_iff {t : Test} :
    (∃ bytes, encodeTest set t = .ok bytes) ↔ t.Writable set := by
  have hbytes : (t.args.find? fun v => 255 < v.toNat) = none ↔ ∀ v ∈ t.args, v.toNat ≤ 255 := by
    simp
  unfold encodeTest Test.Writable
  match set.testArity? t.opcode with
  | some .counted =>
    dsimp only
    by_cases hlen : t.args.length ≤ 255
    · simp [hlen]
    · simp [hlen]
  | none | some (.fixed _) =>
    dsimp only
    rw [← hbytes]
    cases t.args.find? fun v => 255 < v.toNat with
    | none => simp
    | some v => simp

theorem exists_encodeClause_iff {clause : Clause} :
    (∃ bytes, encodeClause set clause = .ok bytes) ↔ clause.Writable set := by
  cases clause with
  | test t => exact exists_encodeTest_iff
  | anyOf ts =>
    simp only [encodeClause, Clause.Writable, ← exists_encodeTest_iff, ← Result.exists_mapM_iff,
      Result.bind_eq_ok, Result.pure_eq_ok]
    constructor
    · rintro ⟨_, written, hwritten, _⟩
      exact ⟨written, hwritten⟩
    · rintro ⟨written, hwritten⟩
      exact ⟨_, written, hwritten, rfl⟩

/-- **An instruction has bytes exactly if it can be written.** -/
theorem exists_encodeInstruction_iff {i : Instruction} :
    (∃ bytes, encodeInstruction set i = .ok bytes) ↔ i.Writable set := by
  cases i with
  | command a c => simp [encodeInstruction, Instruction.Writable]
  | goto a t => simp [encodeInstruction, Instruction.Writable]
  | condition a clauses skip =>
    cases skip with
    | none => simp [encodeInstruction, Instruction.Writable]
    | some t =>
      simp only [encodeInstruction, Instruction.Writable, ← exists_encodeClause_iff,
        ← Result.exists_mapM_iff, Result.bind_eq_ok, Result.pure_eq_ok, Option.isSome_some,
        true_and]
      constructor
      · rintro ⟨_, written, hwritten, _⟩
        exact ⟨written, hwritten⟩
      · rintro ⟨written, hwritten⟩
        exact ⟨_, written, hwritten, rfl⟩

/-! ### Places -/

/-- The number of bytes of an instruction. -/
def size (set : CommandSet) (i : Instruction) : Nat :=
  ((encodeInstruction set i).toOption.getD []).length

/-- The number of bytes before the instruction at a position. -/
def offsetAt (set : CommandSet) (code : List Instruction) (n : Nat) : Nat :=
  ((code.take n).map (size set)).sum

/-- A jump of the code spans a distance that no word can say. The distance counts from the end of
the jumping instruction to the start of its target. -/
def LongJump (set : CommandSet) (code : List Instruction) : Prop :=
  ∃ m n i j, code[m]? = some i ∧ code[n]? = some j ∧ i.target? = some j.address ∧
    ¬Word.Fits ((offsetAt set code n : Int) - offsetAt set code (m + 1))

theorem exists_placeFrom : ∀ {code : List Instruction} {taken : List Address} (offset : Nat),
    (addresses code).Nodup → (∀ a ∈ addresses code, a ∉ taken) → (∀ i ∈ code, i.Writable set) →
      ∃ pieces, (placeFrom set taken offset code).result = .ok pieces
  | [], taken, offset, _, _, _ => ⟨[], rfl⟩
  | i :: rest, taken, offset, hnodup, htaken, hw => by
    obtain ⟨bytes, hbytes⟩ := exists_encodeInstruction_iff.2 (hw i List.mem_cons_self)
    obtain ⟨hi, hrest⟩ := List.nodup_cons.1 hnodup
    have hfresh : ∀ a ∈ addresses rest, a ∉ i.address :: taken := fun a ha hm => by
      rcases List.mem_cons.1 hm with rfl | hm
      · exact hi ha
      · exact htaken a (List.mem_cons_of_mem _ ha) hm
    obtain ⟨pieces, hpieces⟩ := exists_placeFrom (offset + bytes.length) hrest hfresh
      fun j hj => hw j (List.mem_cons_of_mem _ hj)
    refine ⟨⟨i, offset, bytes⟩ :: pieces, Logged.result_bind_eq_ok.2 ⟨bytes, hbytes, ?_⟩⟩
    refine Logged.result_bind_eq_ok.2 ⟨(), rfl, ?_⟩
    rw [if_neg (htaken i.address List.mem_cons_self)]
    exact Result.map_eq_ok.2 ⟨pieces, hpieces, rfl⟩

/-- **Code can be placed exactly if its addresses are distinct and its instructions can be
written.** -/
theorem exists_place_iff {code : List Instruction} :
    (∃ pieces, (place set code).result = .ok pieces) ↔
      (addresses code).Nodup ∧ ∀ i ∈ code, i.Writable set := by
  constructor
  · rintro ⟨pieces, h⟩
    obtain ⟨hplaced, rfl, hnodup, _⟩ := placeFrom_eq_ok h
    refine ⟨hnodup, fun i hi => ?_⟩
    obtain ⟨p, hp, rfl⟩ := List.mem_map.1 hi
    exact exists_encodeInstruction_iff.1 ⟨_, hplaced.encode p hp⟩
  · rintro ⟨hnodup, hw⟩
    exact exists_placeFrom 0 hnodup (fun _ _ => List.not_mem_nil) hw

/-- The piece at a position stands after the bytes of those before it. -/
theorem Placed.offset_eq {offset : Nat} {pieces : List Piece} (h : Placed set offset pieces) :
    ∀ {n : Nat} {p : Piece}, pieces[n]? = some p →
      p.offset = offset + offsetAt set (pieces.map Piece.instruction) n ∧
        p.finish = offset + offsetAt set (pieces.map Piece.instruction) (n + 1) := by
  induction h with
  | nil => exact fun hget => nomatch hget
  | @cons p rest hp hrest ih =>
    have hsize : size set p.instruction = p.length := by
      rw [size, hp]
      rfl
    intro n q hget
    cases n with
    | zero =>
      cases hget
      simp [offsetAt, hsize, Piece.finish]
    | succ n =>
      obtain ⟨hoffset, hfinish⟩ := ih hget
      rw [hoffset, hfinish]
      simp only [offsetAt, List.map_cons, List.take_succ_cons, List.sum_cons, hsize, Piece.finish]
      omega

/-! ### Jumps -/

/-- A jump cannot be filled in if it leads nowhere or too far. -/
theorem fillIn_eq_error {found : OrderedMap Address Placement} {p : Piece} {e : Error}
    (h : (fillIn found p).result = .error e) :
    ∃ t, p.instruction.target? = some t ∧
      (offset? found t = none ∧ e = .danglingTarget p.address t ∨
        ∃ n, offset? found t = some n ∧ ¬Word.Fits (distance p n) ∧
          e = .jumpOutOfRange p.address (distance p n)) := by
  unfold fillIn at h
  split at h
  · cases h
  · rename_i t ht
    split at h
    · rename_i hnone
      exact ⟨t, ht, .inl ⟨hnone, (Except.error.inj h).symm⟩⟩
    · rename_i n hn
      split at h
      · cases h
      · rename_i hfits
        exact ⟨t, ht, .inr ⟨n, hn, hfits, (Except.error.inj h).symm⟩⟩

/-- The distance between two pieces, in the offsets of their instructions. -/
theorem Placed.distance_eq {pieces : List Piece} (h : Placed set 0 pieces) {m n : Nat} {p q : Piece}
    (hp : pieces[m]? = some p) (hq : pieces[n]? = some q) :
    distance p q.offset = (offsetAt set (pieces.map Piece.instruction) n : Int) -
      offsetAt set (pieces.map Piece.instruction) (m + 1) := by
  rw [distance, (h.offset_eq hp).2, (h.offset_eq hq).1, Nat.zero_add, Nat.zero_add]

/-- A jump is too long, in the offsets of the pieces. -/
theorem Placed.longJump_iff {pieces : List Piece} (h : Placed set 0 pieces) :
    LongJump set (pieces.map Piece.instruction) ↔
      ∃ p ∈ pieces, ∃ q ∈ pieces, p.instruction.target? = some q.address ∧
        ¬Word.Fits (distance p q.offset) := by
  constructor
  · rintro ⟨m, n, i, j, hi, hj, ht, hlong⟩
    rw [List.getElem?_map] at hi hj
    obtain ⟨p, hp, rfl⟩ := Option.map_eq_some_iff.1 hi
    obtain ⟨q, hq, rfl⟩ := Option.map_eq_some_iff.1 hj
    rw [← h.distance_eq hp hq] at hlong
    exact ⟨p, List.mem_of_getElem? hp, q, List.mem_of_getElem? hq, ht, hlong⟩
  · rintro ⟨p, hp, q, hq, ht, hlong⟩
    obtain ⟨m, hm⟩ := List.mem_iff_getElem?.1 hp
    obtain ⟨n, hn⟩ := List.mem_iff_getElem?.1 hq
    rw [h.distance_eq hm hn] at hlong
    refine ⟨m, n, p.instruction, q.instruction, ?_, ?_, ht, hlong⟩
    · rw [List.getElem?_map, hm]
      rfl
    · rw [List.getElem?_map, hn]
      rfl

/-- What can go wrong when code with distinct addresses that can be written is assembled: a jump
that leads to no instruction, or one that is too long. -/
theorem assemble_eq_error_of_nodup {code : List Instruction} {e : Error}
    (hn : (addresses code).Nodup) (hw : ∀ i ∈ code, i.Writable set)
    (h : (assemble set code).result = .error e) :
    (∃ i ∈ code, ∃ t, i.target? = some t ∧ t ∉ addresses code ∧
        e = .danglingTarget i.address t) ∨
      (∃ a d, e = .jumpOutOfRange a d) ∧ LongJump set code := by
  obtain ⟨pieces, hplace⟩ := exists_place_iff.2 ⟨hn, hw⟩
  rw [assemble_eq] at h
  rcases Logged.result_bind_eq_error.1 h with h | ⟨pieces', hplace', h⟩
  · rw [hplace] at h
    cases h
  · rw [hplace] at hplace'
    cases hplace'
    obtain ⟨hplaced, rfl, hnodup, _⟩ := placeFrom_eq_ok hplace
    rw [addresses, List.map_map] at hnodup
    rcases Logged.result_bind_eq_error.1 h with h | ⟨filled, _, h⟩
    · rw [Logged.result_mapM] at h
      obtain ⟨p, hp, h⟩ := Result.mapM_eq_error h
      obtain ⟨t, ht, ⟨hnone, rfl⟩ | ⟨n, hn, hfits, rfl⟩⟩ := fillIn_eq_error h
      · -- an instruction of the code would have an offset
        refine .inl ⟨_, List.mem_map_of_mem hp, t, ht, fun hmem => ?_, rfl⟩
        rw [addresses, List.map_map] at hmem
        obtain ⟨q, hq, rfl⟩ := List.mem_map.1 hmem
        cases (offset?_tableOf hnodup hq).symm.trans hnone
      · obtain ⟨q, hq, rfl⟩ := exists_of_offset?_tableOf hn
        cases (offset?_tableOf hnodup hq).symm.trans hn
        exact .inr ⟨⟨_, _, rfl⟩, hplaced.longJump_iff.2 ⟨p, hp, q, hq, ht, hfits⟩⟩
    · cases h

/-- **The one thing that can go wrong** when code that can be written and whose jumps lead to its
own instructions is assembled: a jump that is too long. -/
theorem assemble_eq_error {code : List Instruction} {e : Error} (hc : Closed code)
    (hw : ∀ i ∈ code, i.Writable set) (h : (assemble set code).result = .error e) :
    (∃ a d, e = .jumpOutOfRange a d) ∧ LongJump set code := by
  rcases assemble_eq_error_of_nodup hc.nodup hw h with ⟨i, hi, t, ht, hdangling, _⟩ | hlong
  · exact absurd (hc.target_mem i hi t ht) hdangling
  · exact hlong

/-- No jump of assembled code is too long. -/
theorem Assembled.not_longJump {code : List Instruction} {bytes : List UInt8} {pieces : List Piece}
    (h : Assembled set code bytes pieces) : ¬LongJump set code := by
  intro hlong
  have hnodup := h.nodup
  rw [← h.addresses_eq] at hnodup
  rw [← h.instructions] at hlong
  obtain ⟨p, hp, q, hq, ht, hlong⟩ := h.placed.longJump_iff.1 hlong
  obtain ⟨filled, hfilled, _⟩ := h.filled
  obtain ⟨_, _, hfill⟩ := exists_of_forall₂ hfilled hp
  rcases fillIn_eq_ok hfill with ⟨hnone, _⟩ | ⟨t, target, ht', hfound, hfits, _⟩
  · cases ht.symm.trans hnone
  · cases ht.symm.trans ht'
    cases (offset?_tableOf hnodup hq).symm.trans hfound
    exact hlong hfits

/-- **Code can be assembled exactly if** its addresses are distinct, its jumps lead to its own
instructions, each instruction can be written, and no jump is too long. -/
theorem exists_assemble_iff {code : List Instruction} :
    (∃ bytes, (assemble set code).result = .ok bytes) ↔
      Closed code ∧ (∀ i ∈ code, i.Writable set) ∧ ¬LongJump set code := by
  constructor
  · rintro ⟨bytes, h⟩
    obtain ⟨pieces, hpieces⟩ := exists_assembled h
    refine ⟨⟨hpieces.nodup, fun i hi t ht => ?_⟩, (exists_place_iff.1 ⟨_, hpieces.place⟩).2,
      hpieces.not_longJump⟩
    obtain ⟨n, hn, _⟩ := hpieces.exists_offset (.inr ⟨i, hi, ht⟩)
    obtain ⟨p, hp, rfl⟩ := exists_of_offset?_tableOf hn
    rw [← hpieces.addresses_eq]
    exact List.mem_map_of_mem hp
  · rintro ⟨hc, hw, hlong⟩
    cases h : (assemble set code).result with
    | ok bytes => exact ⟨bytes, rfl⟩
    | error e => exact absurd (assemble_eq_error hc hw h).2 hlong

end Bytecode
end AdventureLogic
