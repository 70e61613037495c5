import Mathlib
import AdventureLogic.Proofs.Bytecode.Accepted
import AdventureLogic.Proofs.Bytecode.Writable
import AdventureLogic.Proofs.Program.Nesting
import AdventureLogic.Proofs.RoundTrip

/-!
# A round trip to code that is too long

On a round trip code can become longer, as conditions that skip back are sent to
gotos behind the code. So code of less than 2³² bytes can come back with more.
Then addresses no longer tell the instructions apart, and the result may run in
another way.

The code here has a condition with so many tests that it is almost that long,
two conditions that each wait until they hold, and a return. On a round trip two
gotos are added. The second stands at offset 2³², so when the result is decoded
it has the address 0, which leads to the long condition. The first of the two
waiting conditions goes there when it does not hold.

How many tests there are does not matter until the offsets are counted: the
blocks, their layout and the passes are the same for any clauses.

Key definitions: `longBytes`, `waiting`, `waitingLaidOut`. Key theorem:
`roundTrip_longBytes`.
-/

namespace AdventureLogic

open Program (addresses)

/-- The same test `n` times. -/
def manyTests (n : Nat) : List Clause := List.replicate n (.test ⟨7, [5], false⟩)

/-- A condition with `n` tests that skips nothing, two conditions that skip to themselves, and a
return. -/
def longBytes (n : Nat) : List UInt8 :=
  0xFF :: ((List.replicate n [7, 5]).flatten ++
    [0xFF, 0, 0, 0xFF, 0xFF, 0xFC, 0xFF, 0xFF, 0xFF, 0xFC, 0xFF, 0])

/-- What the bytes stand for, if there are 2³¹ - 8 tests. -/
def waiting (clauses : List Clause) : List Instruction :=
  [.condition 0 clauses (some 4294967284), .condition 4294967284 [] (some 4294967284),
    .condition 4294967288 [] (some 4294967288), .command 4294967292 Command.ret]

/-- The blocks of the code. -/
def waitingGraph (clauses : List Clause) : BlockGraph where
  entries := #[
    .addEdge (.ofBlock { commands := [], exit := .branch clauses (some 1) none }) 1,
    .ofBlock { name := some "Label1", commands := [], exit := .branch [] (some 2) (some 1) },
    .ofBlock { name := some "Label2", commands := [], exit := .branch [] (some 3) (some 2) },
    .ofBlock { commands := [Command.ret], exit := .single none }]

/-- What the blocks are put together to, in normal form. -/
def waitingLaidOut (clauses : List Clause) : List Instruction :=
  [.condition 0 clauses (some 1), .condition 1 [] (some 8), .condition 2 [] (some 9),
    .command 3 Command.ret, .goto 9 2, .goto 8 1]

/-- What is decoded after the round trip. -/
def waitingWrapped (clauses : List Clause) : List Instruction :=
  [.condition 0 clauses (some 4294967284), .condition 4294967284 [] (some 0),
    .condition 4294967288 [] (some 4294967293), .command 4294967292 Command.ret,
    .goto 4294967293 4294967288, .goto 0 4294967284]

/-! ## Blocks and passes -/

theorem ofInstructions_waiting (clauses : List Clause) :
    (BlockGraph.ofInstructions (waiting clauses)
      (LabelTable.ofInstructions (waiting clauses))).result = .ok (waitingGraph clauses) := by
  cbv

theorem recompile_waitingGraph (clauses : List Clause) :
    ∃ listing, ((waitingGraph clauses).recompile true).result = .ok listing ∧
      listing.code = waitingLaidOut clauses := by
  have hrun : ((waitingGraph clauses).layOut.result >>= fun final =>
      Program.ofCode final.output final.labels >>= fun p =>
      p.dropUnreachable.program.relabel >>= fun q =>
      q.selfContain.program.relabel >>= fun r =>
      r.selfContain.program.relabel >>= fun s =>
      s.dropRedundantGotos.program.relabel.map fun t =>
        (p.dropUnreachable.result, q.dropUnreachable.result, q.selfContain.result,
          r.selfContain.result, s.selfContain.result, s.dropRedundantGotos.result,
          t.dropRedundantGotos.result, t.code)) =
      .ok (.ok true, .ok false, .ok true, .ok true, .ok false, .ok true, .ok false,
        waitingLaidOut clauses) := by cbv
  obtain ⟨final, hfinal, hrun⟩ := Result.bind_eq_ok.1 hrun
  obtain ⟨p, hp, hrun⟩ := Result.bind_eq_ok.1 hrun
  obtain ⟨q, hq, hrun⟩ := Result.bind_eq_ok.1 hrun
  obtain ⟨r, hr, hrun⟩ := Result.bind_eq_ok.1 hrun
  obtain ⟨s, hs, hrun⟩ := Result.bind_eq_ok.1 hrun
  obtain ⟨t, ht, hrun⟩ := Result.map_eq_ok.1 hrun
  simp only [Prod.mk.injEq] at hrun
  obtain ⟨hdrop, hdropped, hdetour, hdetour', hcontained, htidy, htidied, hcode⟩ := hrun
  obtain ⟨hq', hfirst⟩ := Pass.toFixpoint_once .unreachable Pass.unreachable.name hdrop hq hdropped
  obtain ⟨hs', hsecond⟩ :=
    Pass.toFixpoint_twice .selfContained Pass.selfContained.name hdetour hr hdetour' hs hcontained
  obtain ⟨ht', hthird⟩ :=
    Pass.toFixpoint_once .redundantGotos Pass.redundantGotos.name htidy ht htidied
  subst hq' hs'
  obtain ⟨hok, hnormal⟩ := Program.normalize_of_ok hfirst hsecond hthird
  refine ⟨_, BlockGraph.recompile_eq_ok_iff.2 ⟨final, p, hfinal, hp, hok, rfl⟩, ?_⟩
  show (p.normalize true).program.code = _
  rw [hnormal, ht', hcode]

/-! ## Bytes -/

section Bytes

open Bytecode

theorem length_flatten_replicate (n : Nat) :
    (List.replicate n [(7 : UInt8), 5]).flatten.length = 2 * n := by
  simp [Nat.mul_comm]

theorem length_longBytes (n : Nat) : (longBytes n).length = 2 * n + 13 := by
  rw [longBytes, List.length_cons, List.length_append, length_flatten_replicate]
  rfl

theorem encodes_manyTests (n : Nat) :
    List.Forall₂ (fun clause bytes => encodeClause {} clause = .ok bytes) (manyTests n)
      (List.replicate n [7, 5]) := by
  have hencode : encodeClause {} (.test ⟨7, [5], false⟩) = .ok [7, 5] := by decide +kernel
  induction n with
  | zero => exact .nil
  | succ n ih => exact .cons hencode ih

theorem wellFormed_manyTests (n : Nat) : ∀ clause ∈ manyTests n, clause.WellFormed {} := by
  intro clause hc
  rw [List.eq_of_mem_replicate hc]
  decide +kernel

/-- A condition without tests that skips to itself. -/
theorem spells_wait {size offset : Nat} {a : Address} (ha : a.toNat = offset)
    (hsize : offset ≤ size) : SpellsInstruction {} Opcode.clauseMarkers size offset
      (.condition a [] (some a)) [0xFF, 0xFF, 0xFC, 0xFF] := by
  refine .condition ha (.nil 0) (w := 0xFFFC) ⟨?_, ha ▸ hsize⟩
  show (a.toNat : Int) = (offset + 4 : Nat) + -4
  omega

theorem decode_longBytes {n : Nat} (hn : n = 2 ^ 31 - 8) :
    (decode {} (longBytes n)).result = .ok (waiting (manyTests n)) := by
  have hclauses := spellsClauses_of_encode (encodes_manyTests n) (wellFormed_manyTests n)
  generalize htests : (List.replicate n [(7 : UInt8), 5]).flatten = tests at hclauses
  have hlength : tests.length = 2 * n := htests ▸ length_flatten_replicate n
  have hfirst : SpellsInstruction {} Opcode.clauseMarkers (2 * n + 13) 0
      (.condition 0 (manyTests n) (some 4294967284))
      (0xFF :: ((tests ++ [0xFF]) ++ [0, 0])) := by
    refine .condition rfl hclauses (w := 0) ⟨?_, ?_⟩
    · rw [List.length_append, hlength, hn]
      rfl
    · show 4294967284 ≤ 2 * n + 13
      omega
  have hafter : 0 + (0xFF :: ((tests ++ [0xFF]) ++ [(0 : UInt8), 0])).length = 4294967284 := by
    simp only [List.length_cons, List.length_append, hlength, List.length_nil]
    omega
  have hspells : SpellsFrom {} Opcode.clauseMarkers (2 * n + 13) 0 (waiting (manyTests n))
      [0xFF :: ((tests ++ [0xFF]) ++ [0, 0]), [0xFF, 0xFF, 0xFC, 0xFF], [0xFF, 0xFF, 0xFC, 0xFF],
        [0]] := by
    refine .cons hfirst ?_
    rw [hafter]
    refine .cons (spells_wait rfl (by omega)) (.cons (spells_wait rfl ?_) (.cons ?_ .nil))
    · show 4294967288 ≤ 2 * n + 13
      omega
    · exact .command rfl (by decide +kernel)
  refine decode_of_spells (List.Subset.refl _) ⟨_, (length_longBytes n).symm ▸ hspells, ?_⟩
  rw [longBytes, htests]
  simp

/-! ## The result -/

theorem encode_manyTests (n : Nat) :
    encodeInstruction {} (.condition 0 (manyTests n) (some 1)) =
      .ok (0xFF :: (List.replicate n [7, 5]).flatten ++ [0xFF, 0, 0]) :=
  Result.bind_eq_ok.2 ⟨_, Result.mapM_eq_ok.2 (encodes_manyTests n), rfl⟩

theorem sizes_waitingLaidOut (n : Nat) :
    (waitingLaidOut (manyTests n)).map (size {}) = [2 * n + 4, 4, 4, 1, 3, 3] := by
  have hsize : size {} (.condition 0 (manyTests n) (some 1)) = 2 * n + 4 := by
    rw [size, encode_manyTests]
    show (0xFF :: (List.replicate n [(7 : UInt8), 5]).flatten ++ [0xFF, 0, 0]).length = _
    rw [List.length_append, List.length_cons, length_flatten_replicate]
    rfl
  show size {} (.condition 0 (manyTests n) (some 1)) :: [4, 4, 1, 3, 3] = _
  rw [hsize]

theorem offsetAt_waitingLaidOut (n k : Nat) :
    offsetAt {} (waitingLaidOut (manyTests n)) k = ([2 * n + 4, 4, 4, 1, 3, 3].take k).sum := by
  rw [offsetAt, List.map_take, sizes_waitingLaidOut]

theorem not_longJump_waitingLaidOut (n : Nat) : ¬LongJump {} (waitingLaidOut (manyTests n)) := by
  rintro ⟨m, k, i, j, hi, hj, ht, hlong⟩
  rw [offsetAt_waitingLaidOut, offsetAt_waitingLaidOut] at hlong
  have hm : m < 6 := (List.getElem?_eq_some_iff.1 hi).1
  have hk : k < 6 := (List.getElem?_eq_some_iff.1 hj).1
  -- each jump leads to one instruction only
  interval_cases m <;> cases hi <;> interval_cases k <;> cases hj <;> cases ht <;>
    exact hlong (by simp [Word.Fits]; try omega)

theorem closed_waitingLaidOut (clauses : List Clause) : Closed (waitingLaidOut clauses) := by
  have haddresses : addresses (waitingLaidOut clauses) = [0, 1, 2, 3, 9, 8] := rfl
  refine ⟨by rw [haddresses]; decide, fun i hi t ht => ?_⟩
  rw [haddresses]
  simp only [waitingLaidOut, List.mem_cons, List.not_mem_nil, or_false] at hi
  rcases hi with rfl | rfl | rfl | rfl | rfl | rfl <;> cases ht <;> decide

theorem forall_mem_waitingLaidOut {clauses : List Clause} {P : Instruction → Prop}
    (hfirst : P (.condition 0 clauses (some 1)))
    (hrest : ∀ i ∈ (waitingLaidOut []).tail, P i) : ∀ i ∈ waitingLaidOut clauses, P i :=
  List.forall_mem_cons.2 ⟨hfirst, hrest⟩

/-- The result can be assembled. -/
theorem exists_assemble_waitingLaidOut (n : Nat) :
    ∃ bytes, (assemble {} (waitingLaidOut (manyTests n))).result = .ok bytes := by
  refine exists_assemble_iff.2 ⟨closed_waitingLaidOut _, forall_mem_waitingLaidOut ?_ ?_,
    not_longJump_waitingLaidOut n⟩
  · exact exists_encodeInstruction_iff.1 ⟨_, encode_manyTests n⟩
  · intro i hi
    simp only [waitingLaidOut, List.tail_cons, List.mem_cons, List.not_mem_nil, or_false] at hi
    rcases hi with rfl | rfl | rfl | rfl | rfl <;>
      exact exists_encodeInstruction_iff.1 ⟨_, rfl⟩

/-- **When the result is decoded, the second goto has the address 0.** -/
theorem decode_waitingLaidOut {n : Nat} (hn : n = 2 ^ 31 - 8) {bytes : List UInt8}
    (h : (assemble {} (waitingLaidOut (manyTests n))).result = .ok bytes) :
    (decode {} bytes).result = .ok (waitingWrapped (manyTests n)) := by
  obtain ⟨pieces, hpieces⟩ := exists_assembled h
  have hwellFormed : ∀ i ∈ waitingLaidOut (manyTests n), i.WellFormed {} :=
    forall_mem_waitingLaidOut (wellFormed_manyTests n) (by decide +kernel)
  have hplace : ∀ (k : Nat) (i : Instruction) (a : Address),
      (waitingLaidOut (manyTests n))[k]? = some i →
      UInt32.ofNat ([2 * n + 4, 4, 4, 1, 3, 3].take k).sum = a →
      relocation (tableOf pieces) i.address = a := by
    intro k i a hi ha
    rw [← hpieces.instructions, List.getElem?_map, Option.map_eq_some_iff] at hi
    obtain ⟨p, hp, rfl⟩ := hi
    have hoffset := (hpieces.offset_of_mem (List.mem_of_getElem? hp)).1
    rw [(hpieces.placed.offset_eq hp).1, hpieces.instructions, offsetAt_waitingLaidOut,
      Nat.zero_add] at hoffset
    rw [← ha]
    exact congrArg (fun o => UInt32.ofNat (o.getD 0)) hoffset
  have h₀ : relocation (tableOf pieces) 0 = 0 :=
    hplace 0 (.condition 0 (manyTests n) (some 1)) 0 rfl (by simp [hn])
  have h₁ : relocation (tableOf pieces) 1 = 4294967284 :=
    hplace 1 (.condition 1 [] (some 8)) 4294967284 rfl (by simp [hn])
  have h₂ : relocation (tableOf pieces) 2 = 4294967288 :=
    hplace 2 (.condition 2 [] (some 9)) 4294967288 rfl (by simp [hn])
  have h₃ : relocation (tableOf pieces) 3 = 4294967292 :=
    hplace 3 (.command 3 Command.ret) 4294967292 rfl (by simp [hn])
  have h₉ : relocation (tableOf pieces) 9 = 4294967293 :=
    hplace 4 (.goto 9 2) 4294967293 rfl (by simp [hn])
  have h₈ : relocation (tableOf pieces) 8 = 0 :=
    hplace 5 (.goto 8 1) 0 rfl (by simp [hn])
  rw [hpieces.decode_eq hwellFormed]
  simp [waitingLaidOut, waitingWrapped, Instruction.rename, h₀, h₁, h₂, h₃, h₈, h₉]

end Bytes

/-! ## Runs -/

/-- With the second goto at the address 0 the code runs in another way. -/
theorem not_equivalent_waitingWrapped {clauses : List Clause} (h : clauses ≠ []) :
    ¬(Machine.ofCode (waiting clauses)).Equivalent (Machine.ofCode (waitingWrapped clauses)) := by
  intro hequivalent
  -- only the first decision is that a condition holds
  let d : Nat → Bool := fun k => k = 0
  have htrace : (Machine.ofCode (waiting clauses)).trace d 3 =
      ⟨[.test clauses, .test [], .test []], false⟩ := rfl
  have hwrapped : ∀ k, ∃ t : Trace, (Machine.ofCode (waitingWrapped clauses)).trace d (k + 3) =
      ((t.after (.test clauses)).after (.test [])).after (.test clauses) := fun k => ⟨_, rfl⟩
  obtain ⟨k, hk⟩ := (hequivalent d _).1 ⟨3, htrace⟩
  rcases k with _ | _ | _ | k
  · cases hk
  · cases hk
  · cases hk
  · obtain ⟨t, ht⟩ := hwrapped k
    have heffects := congrArg Trace.effects (hk.symm.trans ht)
    simp only [Trace.after, List.cons.injEq, Effect.test.injEq] at heffects
    exact h heffects.2.2.1.symm

/-- **A round trip may change the runs of code whose result is too long.** The code has less than
2³² bytes. -/
theorem roundTrip_longBytes :
    (longBytes (2 ^ 31 - 8)).length < 2 ^ 32 ∧
      ∃ trip, (roundTrip {} (longBytes (2 ^ 31 - 8))).result = .ok trip ∧
        ∃ before after, (Bytecode.decode {} (longBytes (2 ^ 31 - 8))).result = .ok before ∧
          (Bytecode.decode {} trip.code).result = .ok after ∧
          ¬(Machine.ofCode before).Equivalent (Machine.ofCode after) := by
  generalize hn : 2 ^ 31 - 8 = n
  have hdecode := decode_longBytes hn.symm
  have hgraph := ofInstructions_waiting (manyTests n)
  obtain ⟨listing, hlisting, hcode⟩ := recompile_waitingGraph (manyTests n)
  obtain ⟨bytes, hbytes⟩ := exists_assemble_waitingLaidOut n
  have htrip : (roundTrip {} (longBytes n)).result =
      .ok ⟨waitingGraph (manyTests n), listing, bytes⟩ := by
    have hdecompiled : (decompile {} (longBytes n)).result = .ok (waitingGraph (manyTests n)) :=
      Logged.result_bind_eq_ok.2 ⟨⟨_, _⟩, Logged.result_bind_eq_ok.2 ⟨_, hdecode, rfl⟩, hgraph⟩
    rw [← hcode] at hbytes
    exact Logged.result_bind_eq_ok.2 ⟨_, hdecompiled, Logged.result_bind_eq_ok.2 ⟨_, hlisting,
      Logged.result_bind_eq_ok.2 ⟨_, hbytes, Logged.result_bind_eq_ok.2 ⟨(), rfl, rfl⟩⟩⟩⟩
  refine ⟨by rw [length_longBytes]; omega, _, htrip, _, _, hdecode,
    decode_waitingLaidOut hn.symm hbytes, not_equivalent_waitingWrapped ?_⟩
  rw [manyTests, Ne, List.replicate_eq_nil_iff]
  omega

end AdventureLogic
