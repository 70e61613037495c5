import Mathlib
import AdventureLogic.Proofs.Behaviour.Code
import AdventureLogic.Proofs.Bytecode.Writable

/-!
# What decoding gives

Decoded code is well formed: what was read can be written again and read as the
same. Its addresses are the offsets of its instructions, which increase, so in
code of at most 2³² bytes they are distinct. Each of its conditions has a skip
target.

Key definitions: `Bytecode.ReadAt`, `Bytecode.Decoded`. Key theorems:
`Bytecode.readAt_decodeFrom`, `Bytecode.increasing_decode`, `Bytecode.decoded_decode`.
-/

namespace AdventureLogic
namespace Bytecode

open Program (addresses)

namespace Cursor

/-- The offset where the bytes end. -/
def stop (c : Cursor) : Nat := c.offset + c.rest.length

theorem stop_byte {c d : Cursor} {b : UInt8} (h : c.byte = .ok (b, d)) : d.stop = c.stop := by
  unfold byte at h
  split at h
  · cases h
  · rename_i rest hr
    cases h
    rw [stop, stop, hr, List.length_cons, Nat.add_assoc, Nat.add_comm 1]

theorem stop_word {c d : Cursor} {w : UInt16} (h : c.word = .ok (w, d)) : d.stop = c.stop := by
  obtain ⟨⟨low, c1⟩, h1, h⟩ := Result.bind_eq_ok.1 h
  obtain ⟨⟨high, c2⟩, h2, h⟩ := Result.bind_eq_ok.1 h
  cases h
  exact (stop_byte h2).trans (stop_byte h1)

theorem stop_bytes : ∀ {n : Nat} {c d : Cursor} {bs : List UInt8}, c.bytes n = .ok (bs, d) →
    d.stop = c.stop ∧ bs.length = n
  | 0, c, d, bs, h => by
    cases h
    exact ⟨rfl, rfl⟩
  | n + 1, c, d, bs, h => by
    obtain ⟨⟨b, c1⟩, h1, h⟩ := Result.bind_eq_ok.1 h
    obtain ⟨⟨bs1, c2⟩, h2, h⟩ := Result.bind_eq_ok.1 h
    cases h
    obtain ⟨hstop, hlen⟩ := stop_bytes h2
    exact ⟨hstop.trans (stop_byte h1), congrArg Nat.succ hlen⟩

theorem stop_words : ∀ {n : Nat} {c d : Cursor} {ws : List UInt16}, c.words n = .ok (ws, d) →
    d.stop = c.stop ∧ ws.length = n
  | 0, c, d, ws, h => by
    cases h
    exact ⟨rfl, rfl⟩
  | n + 1, c, d, ws, h => by
    obtain ⟨⟨w, c1⟩, h1, h⟩ := Result.bind_eq_ok.1 h
    obtain ⟨⟨ws1, c2⟩, h2, h⟩ := Result.bind_eq_ok.1 h
    cases h
    obtain ⟨hstop, hlen⟩ := stop_words h2
    exact ⟨hstop.trans (stop_word h1), congrArg Nat.succ hlen⟩

theorem stop_jump {size source : Nat} {c d : Cursor} {t : UInt32}
    (h : c.jump size source = .ok (t, d)) : d.stop = c.stop := by
  obtain ⟨⟨w, c1⟩, h1, h⟩ := Result.bind_eq_ok.1 h
  dsimp only at h
  split at h
  · cases h
    exact stop_word h1
  · cases h

end Cursor

variable {set : CommandSet}

/-- A test that was read is well formed and can be written, and so is its negation. -/
theorem wellFormed_readTest {op : Opcode} {offset : Nat} {c d : Cursor} {t : Test}
    (hop : op ∉ Opcode.clauseMarkers) (h : readTest set op offset c = .ok (t, d)) :
    d.stop = c.stop ∧ ∀ n, (t.negate n).WellFormed set ∧ (t.negate n).Writable set := by
  unfold readTest at h
  split at h
  · cases h
  · rename_i count harity
    obtain ⟨⟨bs, c1⟩, h1, h⟩ := Result.bind_eq_ok.1 h
    cases h
    obtain ⟨hstop, hlen⟩ := Cursor.stop_bytes h1
    refine ⟨hstop, fun n => ⟨⟨hop, .inr ?_⟩, ?_⟩⟩
    · show set.testArity? op = some (.fixed (bs.map UInt8.toUInt16).length)
      rw [List.length_map, hlen, harity]
    · refine Test.writable_of_fixed harity fun v hv => ?_
      obtain ⟨b, _, rfl⟩ := List.mem_map.1 hv
      exact Nat.le_of_lt_succ b.toNat_lt
  · rename_i harity
    obtain ⟨⟨count, c1⟩, h1, h⟩ := Result.bind_eq_ok.1 h
    obtain ⟨⟨ws, c2⟩, h2, h⟩ := Result.bind_eq_ok.1 h
    cases h
    obtain ⟨hstop, hlen⟩ := Cursor.stop_words h2
    refine ⟨hstop.trans (Cursor.stop_byte h1), fun n => ⟨⟨hop, .inl harity⟩, ?_⟩⟩
    exact Test.writable_of_counted harity (hlen.trans_le (Nat.le_of_lt_succ count.toNat_lt))

theorem not_mem_clauseMarkers {b : Opcode} (hc : b ≠ Opcode.conditionMarker)
    (ho : b ≠ Opcode.orMarker) (hn : b ≠ Opcode.notMarker) : b ∉ Opcode.clauseMarkers := by
  simp [Opcode.clauseMarkers, hc, ho, hn]

/-- Clauses that were read are well formed and can be written, if this holds for the tests of the
open group. -/
theorem wellFormed_readClauses {group : Option OpenGroup} {negated : Bool} {c d : Cursor}
    {clauses : List Clause} (h : readClauses set group negated c = .ok (clauses, d))
    (hg : ∀ g, group = some g → ∀ t ∈ g.tests, t.WellFormed set ∧ t.Writable set) :
    d.stop = c.stop ∧ ∀ clause ∈ clauses, clause.WellFormed set ∧ clause.Writable set := by
  fun_induction readClauses set group negated c generalizing clauses d with
  | case1 | case2 | case3 | case5 | case7 | case10 => cases h
  | case4 _ _ _ _ _ _ hb =>
    cases h
    exact ⟨Cursor.stop_byte hb, List.forall_mem_nil _⟩
  | case6 _ _ _ _ hb _ ih =>
    obtain ⟨hstop, hw⟩ := ih h fun g hg => by cases hg; exact List.forall_mem_nil _
    exact ⟨hstop.trans (Cursor.stop_byte hb), hw⟩
  | case8 _ _ _ _ g hne hb _ ih =>
    obtain ⟨r, hr, h⟩ := Result.map_eq_ok.1 h
    cases h
    obtain ⟨hstop, hw⟩ := ih hr fun g hg => by cases hg
    have htests : ∀ t ∈ g.tests.reverse, t.WellFormed set ∧ t.Writable set :=
      fun t ht => hg g rfl t (List.mem_reverse.1 ht)
    refine ⟨hstop.trans (Cursor.stop_byte hb), List.forall_mem_cons.2 ⟨⟨⟨?_, ?_⟩, ?_⟩, hw⟩⟩
    · simpa using hne
    · exact fun t ht => (htests t ht).1
    · exact fun t ht => (htests t ht).2
  | case9 _ _ _ _ hb _ _ ih =>
    obtain ⟨hstop, hw⟩ := ih h hg
    exact ⟨hstop.trans (Cursor.stop_byte hb), hw⟩
  | case11 _ _ _ _ hb hcond hor hnot t after ht ih =>
    obtain ⟨hafter, htest⟩ := wellFormed_readTest (not_mem_clauseMarkers hcond hor hnot) ht
    obtain ⟨r, hr, h⟩ := Result.map_eq_ok.1 h
    cases h
    obtain ⟨hstop, hw⟩ := ih hr fun g hg => by cases hg
    exact ⟨hstop.trans (hafter.trans (Cursor.stop_byte hb)),
      List.forall_mem_cons.2 ⟨htest _, hw⟩⟩
  | case12 _ _ _ _ hb hcond hor hnot t after ht g ih =>
    obtain ⟨hafter, htest⟩ := wellFormed_readTest (not_mem_clauseMarkers hcond hor hnot) ht
    obtain ⟨hstop, hw⟩ := ih h fun g' hg' => by
      cases hg'
      exact List.forall_mem_cons.2 ⟨htest _, hg g rfl⟩
    exact ⟨hstop.trans (hafter.trans (Cursor.stop_byte hb)), hw⟩

/-- What is known of an instruction that was read. -/
structure ReadAt (set : CommandSet) (offset : Nat) (i : Instruction) : Prop where
  wellFormed : i.WellFormed set
  writable : i.Writable set
  address : i.address = UInt32.ofNat offset
  skip : ∀ a clauses, i ≠ .condition a clauses none

theorem readAt_readInstruction {size : Nat} {c d : Cursor} {i : Instruction}
    (h : readInstruction set size c = .ok (i, d)) :
    d.stop = c.stop ∧ ReadAt set c.offset i := by
  obtain ⟨⟨b, next⟩, hb, h⟩ := Result.bind_eq_ok.1 h
  have hnext := Cursor.stop_byte hb
  dsimp only at h
  split at h
  · obtain ⟨⟨clauses, after⟩, h1, h⟩ := Result.bind_eq_ok.1 h
    obtain ⟨⟨skip, last⟩, h2, h⟩ := Result.bind_eq_ok.1 h
    cases h
    obtain ⟨hstop, hw⟩ := wellFormed_readClauses h1 fun g hg => by cases hg
    exact ⟨(Cursor.stop_jump h2).trans (hstop.trans hnext), fun clause hc => (hw clause hc).1,
      ⟨rfl, fun clause hc => (hw clause hc).2⟩, rfl, fun _ _ he => by cases he⟩
  · split at h
    · obtain ⟨⟨target, last⟩, h1, h⟩ := Result.bind_eq_ok.1 h
      cases h
      exact ⟨(Cursor.stop_jump h1).trans hnext, trivial, trivial, rfl, fun _ _ he => by cases he⟩
    · split at h
      · cases h
      · rename_i arity harity
        obtain ⟨⟨args, last⟩, h1, h⟩ := Result.bind_eq_ok.1 h
        cases h
        obtain ⟨hstop, hlen⟩ := Cursor.stop_bytes h1
        subst hlen
        exact ⟨hstop.trans hnext, harity, trivial, rfl, fun _ _ he => by cases he⟩

/-- **Decoded instructions stand at increasing offsets.** -/
theorem readAt_decodeFrom {size : Nat} {c : Cursor} {code : List Instruction}
    (h : (decodeFrom set size c).result = .ok code) :
    ∃ offsets : List Nat, List.Forall₂ (ReadAt set) offsets code ∧ offsets.Pairwise (· < ·) ∧
      ∀ o ∈ offsets, c.offset ≤ o ∧ o < c.stop := by
  fun_induction decodeFrom set size c generalizing code with
  | case1 =>
    cases h
    exact ⟨[], .nil, .nil, List.forall_mem_nil _⟩
  | case2 => cases h
  | case3 c hne i next hread ih =>
    obtain ⟨_, _, h⟩ := Logged.result_bind_eq_ok.1 h
    obtain ⟨rest, hrest, rfl⟩ := Result.map_eq_ok.1 h
    obtain ⟨offsets, hall, hincreasing, hbounds⟩ := ih hrest
    obtain ⟨hstop, hi⟩ := readAt_readInstruction hread
    have hlt := length_readInstruction set hread
    rw [Cursor.stop, Cursor.stop] at hstop
    refine ⟨c.offset :: offsets, .cons hi hall, .cons (fun o ho => ?_) hincreasing, fun o ho => ?_⟩
    · have := hbounds o ho
      omega
    · rcases List.mem_cons.1 ho with rfl | ho
      · rw [Cursor.stop]
        omega
      · have := hbounds o ho
        rw [Cursor.stop] at this ⊢
        omega

theorem addresses_of_readAt {offsets : List Nat} {code : List Instruction}
    (h : List.Forall₂ (ReadAt set) offsets code) : addresses code = offsets.map UInt32.ofNat := by
  induction h with
  | nil => rfl
  | cons ho _ ih =>
    rw [List.map_cons, ← ho.address, ← ih]
    rfl

/-- **Addresses of decoded code increase** if they are large enough for the offsets. -/
theorem increasing_decode {bytes : List UInt8} {code : List Instruction}
    (h : (decode set bytes).result = .ok code) (hlen : bytes.length ≤ 2 ^ 32) :
    (addresses code).Pairwise (· < ·) := by
  obtain ⟨instructions, hdecode, h⟩ := Logged.result_bind_eq_ok.1 h
  obtain ⟨_, _, h⟩ := Logged.result_bind_eq_ok.1 h
  cases h
  obtain ⟨offsets, hall, hincreasing, hbounds⟩ := readAt_decodeFrom hdecode
  have hstop : (Cursor.start bytes).stop = bytes.length := Nat.zero_add _
  have hoffset : ∀ o ∈ offsets, (UInt32.ofNat o).toNat = o := by
    intro o ho
    have hlt := (hbounds o ho).2
    rw [UInt32.toNat_ofNat', Nat.mod_eq_of_lt (by omega)]
  rw [addresses_of_readAt hall, List.pairwise_map]
  refine hincreasing.imp_of_mem fun {m n} hm hn hlt => ?_
  rwa [UInt32.lt_iff_toNat_lt, hoffset m hm, hoffset n hn]

/-- What is known of decoded code. -/
structure Decoded (set : CommandSet) (code : List Instruction) : Prop where
  wellFormed : ∀ i ∈ code, i.WellFormed set
  writable : ∀ i ∈ code, i.Writable set
  skip : ∀ i ∈ code, ∀ a clauses, i ≠ .condition a clauses none
  nodup : (addresses code).Nodup

/-- **Decoded code is well formed and can be written**, and its addresses are distinct if they are
large enough for the offsets. -/
theorem decoded_decode {bytes : List UInt8} {code : List Instruction}
    (h : (decode set bytes).result = .ok code) (hlen : bytes.length ≤ 2 ^ 32) :
    Decoded set code := by
  have hincreasing := increasing_decode h hlen
  obtain ⟨instructions, hdecode, h⟩ := Logged.result_bind_eq_ok.1 h
  obtain ⟨_, _, h⟩ := Logged.result_bind_eq_ok.1 h
  cases h
  obtain ⟨offsets, hall, _, _⟩ := readAt_decodeFrom hdecode
  have hread : ∀ i ∈ code, ∃ o ∈ offsets, ReadAt set o i :=
    fun i hi => exists_of_forall₂ hall.flip hi
  refine ⟨fun i hi => ?_, fun i hi => ?_, fun i hi => ?_, ?_⟩
  · obtain ⟨o, _, ho⟩ := hread i hi
    exact ho.wellFormed
  · obtain ⟨o, _, ho⟩ := hread i hi
    exact ho.writable
  · obtain ⟨o, _, ho⟩ := hread i hi
    exact ho.skip
  · exact hincreasing.imp UInt32.ne_of_lt

end Bytecode
end AdventureLogic
