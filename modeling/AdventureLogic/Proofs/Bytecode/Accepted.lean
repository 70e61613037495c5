import AdventureLogic.Proofs.Bytecode.Decode

/-!
# The decoder accepts exactly the grammar

What a reader takes is the bytes between two places (`Bytecode.Cursor.Took`).
The bytes that are taken for an instruction are a spelling of it. For clauses
this is an invariant of the reader: what it has in mind, the open group and
whether a negation is pending, stands for bytes that it has read before
(`Bytecode.Pending`). Together with those, the bytes that it goes on to take
spell the clauses that it gives.

So bytes are decoded to instructions exactly if they spell them, and they spell
one list of instructions at most.

Key definitions: `Bytecode.Cursor.Took`, `Bytecode.Pending`. Key theorems:
`Bytecode.spells_readClauses`, `Bytecode.spells_decodeFrom`,
`Bytecode.decode_eq_ok_iff_spells`.
-/

namespace AdventureLogic
namespace Bytecode

namespace Word

theorem bytes_ofBytes (low high : UInt8) : bytes (ofBytes low high) = [low, high] := by
  have hlow := low.toNat_lt
  have hhigh := high.toNat_lt
  have hword : (ofBytes low high).toNat = low.toNat + 256 * high.toNat := by
    rw [ofBytes, UInt16.toNat_ofNat']
    omega
  rw [bytes, hword, List.cons.injEq, List.cons.injEq]
  refine ⟨UInt8.toNat_inj.1 ?_, UInt8.toNat_inj.1 ?_, rfl⟩
  · rw [UInt8.toNat_ofNat']
    omega
  · rw [UInt8.toNat_ofNat']
    omega

/-- Every word says a distance that fits. -/
theorem fits_signed (w : UInt16) : Fits (signed w) := by
  have hw := w.toNat_lt
  unfold signed Fits
  split <;> omega

/-- Every word is written for the distance that it says. -/
theorem ofSigned_signed (w : UInt16) : ofSigned (signed w) = w := by
  have hw := w.toNat_lt
  apply UInt16.toNat_inj.1
  rw [ofSigned, UInt16.toNat_ofNat']
  unfold signed
  split <;> omega

end Word

/-! ## What is taken -/

namespace Cursor

/-- The bytes between two places. -/
structure Took (c : Cursor) (bytes : List UInt8) (d : Cursor) : Prop where
  rest : c.rest = bytes ++ d.rest
  offset : d.offset = c.offset + bytes.length

variable {c d : Cursor}

theorem Took.nil (c : Cursor) : Took c [] c := ⟨rfl, rfl⟩

theorem Took.append {e : Cursor} {bytes bytes' : List UInt8} (h : Took c bytes d)
    (h' : Took d bytes' e) : Took c (bytes ++ bytes') e where
  rest := by rw [h.rest, h'.rest, List.append_assoc]
  offset := by rw [h'.offset, h.offset, List.length_append, Nat.add_assoc]

theorem took_byte {b : UInt8} (h : c.byte = .ok (b, d)) : Took c [b] d := by
  unfold byte at h
  split at h
  · cases h
  · rename_i hrest
    cases h
    exact ⟨hrest, rfl⟩

theorem took_word {w : UInt16} (h : c.word = .ok (w, d)) : Took c (Word.bytes w) d := by
  obtain ⟨⟨low, c₁⟩, h₁, h⟩ := Result.bind_eq_ok.1 h
  obtain ⟨⟨high, c₂⟩, h₂, h⟩ := Result.bind_eq_ok.1 h
  cases h
  rw [Word.bytes_ofBytes]
  exact (took_byte h₁).append (took_byte h₂)

theorem took_bytes : ∀ {n : Nat} {c d : Cursor} {bs : List UInt8}, c.bytes n = .ok (bs, d) →
    Took c bs d ∧ bs.length = n
  | 0, c, d, bs, h => by
    cases h
    exact ⟨.nil c, rfl⟩
  | n + 1, c, d, bs, h => by
    obtain ⟨⟨b, c₁⟩, h₁, h⟩ := Result.bind_eq_ok.1 h
    obtain ⟨⟨bs₁, c₂⟩, h₂, h⟩ := Result.bind_eq_ok.1 h
    cases h
    obtain ⟨htook, hlen⟩ := took_bytes h₂
    exact ⟨(took_byte h₁).append htook, congrArg Nat.succ hlen⟩

theorem took_words : ∀ {n : Nat} {c d : Cursor} {ws : List UInt16}, c.words n = .ok (ws, d) →
    Took c (ws.flatMap Word.bytes) d ∧ ws.length = n
  | 0, c, d, ws, h => by
    cases h
    exact ⟨.nil c, rfl⟩
  | n + 1, c, d, ws, h => by
    obtain ⟨⟨w, c₁⟩, h₁, h⟩ := Result.bind_eq_ok.1 h
    obtain ⟨⟨ws₁, c₂⟩, h₂, h⟩ := Result.bind_eq_ok.1 h
    cases h
    obtain ⟨htook, hlen⟩ := took_words h₂
    exact ⟨(took_word h₁).append htook, congrArg Nat.succ hlen⟩

theorem took_jump {size source : Nat} {t : UInt32} (hsize : size < 2 ^ 32)
    (h : c.jump size source = .ok (t, d)) :
    ∃ w, Took c (Word.bytes w) d ∧ SpellsJump size d.offset w t := by
  obtain ⟨⟨w, c₁⟩, h₁, h⟩ := Result.bind_eq_ok.1 h
  dsimp only at h
  split at h
  · rename_i hbounds
    cases h
    have htarget : (UInt32.ofNat (d.offset + Word.signed w).toNat).toNat =
        (d.offset + Word.signed w).toNat := by
      rw [UInt32.toNat_ofNat']
      omega
    exact ⟨w, took_word h₁, ⟨by omega, by omega⟩⟩
  · cases h

end Cursor

open Cursor (Took)

variable {set : CommandSet}

/-! ## What is taken is a spelling -/

theorem spells_readTest {op : Opcode} {offset : Nat} {c d : Cursor} {t : Test}
    (h : readTest set op offset c = .ok (t, d)) :
    ∃ args bytes, Took c bytes d ∧ SpellsArgs set op args bytes ∧ t = ⟨op, args, false⟩ := by
  unfold readTest at h
  split at h
  · cases h
  · rename_i count harity
    obtain ⟨⟨bs, c₁⟩, h₁, h⟩ := Result.bind_eq_ok.1 h
    cases h
    obtain ⟨htook, rfl⟩ := Cursor.took_bytes h₁
    exact ⟨_, bs, htook, .fixed harity, rfl⟩
  · rename_i harity
    obtain ⟨⟨count, c₁⟩, h₁, h⟩ := Result.bind_eq_ok.1 h
    obtain ⟨⟨ws, c₂⟩, h₂, h⟩ := Result.bind_eq_ok.1 h
    cases h
    obtain ⟨htook, hlen⟩ := Cursor.took_words h₂
    exact ⟨ws, _, (Cursor.took_byte h₁).append htook, .counted harity hlen.symm, rfl⟩

/-- What the reader of clauses has read of a clause that is not complete: negations, and before them
a group with its tests so far. -/
inductive Pending (set : CommandSet) (negated : Bool) : Option OpenGroup → List UInt8 → Prop where
  | outside (n : Nat) (hn : decide (n % 2 = 1) = negated) : Pending set negated none (nots n)
  | inside {g : OpenGroup} {pieces : List (List UInt8)} (m n : Nat)
    (hn : decide (n % 2 = 1) = negated)
    (htests : List.Forall₂ (SpellsTest set Opcode.clauseMarkers) g.tests.reverse pieces) :
    Pending set negated (some g)
      (nots (2 * m) ++ Opcode.orMarker :: (pieces.flatten ++ nots n))

namespace Pending

variable {group : Option OpenGroup} {negated : Bool} {before : List UInt8}

theorem start : Pending set false none [] := .outside 0 rfl

theorem nots_concat (n : Nat) : nots n ++ [Opcode.notMarker] = nots (n + 1) :=
  List.replicate_succ'.symm

theorem parity_succ {n : Nat} (h : decide (n % 2 = 1) = negated) :
    decide ((n + 1) % 2 = 1) = !negated := by
  rcases Nat.mod_two_eq_zero_or_one n with hn | hn
  · simp [← h, Nat.add_mod, hn]
  · simp [← h, Nat.add_mod, hn]

theorem exists_half {n : Nat} (h : decide (n % 2 = 1) = false) : ∃ k, n = 2 * k :=
  ⟨n / 2, by have := of_decide_eq_false h; omega⟩

/-- One more negation. -/
theorem negate (h : Pending set negated group before) :
    Pending set (!negated) group (before ++ [Opcode.notMarker]) := by
  cases h with
  | outside n hn =>
    rw [nots_concat]
    exact .outside (n + 1) (parity_succ hn)
  | inside m n hn htests =>
    rw [List.append_assoc, List.cons_append, List.append_assoc, nots_concat]
    exact .inside m (n + 1) (parity_succ hn) htests

/-- A group is opened. -/
theorem opens (h : Pending set false none before) (opened : Nat) :
    Pending set false (some ⟨opened, []⟩) (before ++ [Opcode.orMarker]) := by
  cases h with
  | outside n hn =>
    obtain ⟨k, rfl⟩ := exists_half hn
    exact @inside set false ⟨opened, []⟩ [] k 0 rfl .nil

/-- The test that the negations stand before, when its opcode and its arguments have been read. -/
theorem spellsTest {n : Nat} (hn : decide (n % 2 = 1) = negated) {op : Opcode} {args : List UInt16}
    {bytes : List UInt8} (hop : op ∉ Opcode.clauseMarkers) (hargs : SpellsArgs set op args bytes) :
    SpellsTest set Opcode.clauseMarkers ⟨op, args, negated⟩ (nots n ++ op :: bytes) :=
  hn ▸ .mk n hop hargs

/-- A group gets a test. -/
theorem adds {g : OpenGroup} (h : Pending set negated (some g) before) {op : Opcode}
    {args : List UInt16} {bytes : List UInt8} (hop : op ∉ Opcode.clauseMarkers)
    (hargs : SpellsArgs set op args bytes) :
    Pending set false (some (g.add ⟨op, args, negated⟩)) (before ++ op :: bytes) := by
  cases h with
  | @inside _ pieces m n hn htests =>
    have htests' : List.Forall₂ (SpellsTest set Opcode.clauseMarkers)
        (g.add ⟨op, args, negated⟩).tests.reverse (pieces ++ [nots n ++ op :: bytes]) := by
      rw [OpenGroup.add, List.reverse_cons]
      exact List.rel_append htests (.cons (spellsTest hn hop hargs) .nil)
    have hpending := Pending.inside m 0 rfl htests'
    simpa [nots] using hpending

/-- A group is closed. -/
theorem closes {g : OpenGroup} (h : Pending set false (some g) before) (hne : g.tests ≠ []) :
    SpellsClause set Opcode.clauseMarkers (.anyOf g.tests.reverse)
      (before ++ [Opcode.orMarker]) := by
  cases h with
  | inside m n hn htests =>
    obtain ⟨k, rfl⟩ := exists_half hn
    rw [List.append_assoc, List.cons_append, List.append_assoc]
    exact .anyOf m k (by simpa using hne) htests

end Pending

/-- **What the reader of clauses takes spells the clauses,** after what it has in mind. By induction
on the bytes that are left. -/
theorem spells_readClauses {group : Option OpenGroup} {negated : Bool} {c d : Cursor}
    {clauses : List Clause} (h : readClauses set group negated c = .ok (clauses, d)) :
    ∃ bytes, Took c bytes d ∧ ∀ before, Pending set negated group before →
      SpellsClauses set Opcode.clauseMarkers clauses (before ++ bytes) := by
  fun_induction readClauses set group negated c generalizing clauses d with
  | case1 | case2 | case3 | case5 | case7 | case10 => cases h
  | case4 group negated c next hgroup hnegated hb =>
    -- the marker that closes the condition
    cases h
    obtain rfl : group = none := by simpa using hgroup
    obtain rfl : negated = false := by simpa using hnegated
    refine ⟨_, Cursor.took_byte hb, ?_⟩
    rintro _ ⟨n, hn⟩
    obtain ⟨k, rfl⟩ := Pending.exists_half hn
    exact .nil k
  | case6 negated c next hnegated hb _ ih =>
    obtain rfl : negated = false := by simpa using hnegated
    obtain ⟨bytes, htook, hspells⟩ := ih h
    refine ⟨_, (Cursor.took_byte hb).append htook, fun before hbefore => ?_⟩
    rw [← List.append_assoc]
    exact hspells _ (hbefore.opens _)
  | case8 negated c next hnegated g hne hb _ ih =>
    obtain rfl : negated = false := by simpa using hnegated
    obtain ⟨r, hr, h⟩ := Result.map_eq_ok.1 h
    cases h
    obtain ⟨bytes, htook, hspells⟩ := ih hr
    refine ⟨_, (Cursor.took_byte hb).append htook, fun before hbefore => ?_⟩
    rw [← List.append_assoc]
    exact .cons (hbefore.closes (by simpa using hne)) (hspells [] .start)
  | case9 group negated c next hb hcond hor ih =>
    obtain ⟨bytes, htook, hspells⟩ := ih h
    refine ⟨_, (Cursor.took_byte hb).append htook, fun before hbefore => ?_⟩
    rw [← List.append_assoc]
    exact hspells _ hbefore.negate
  | case11 negated c b next hb hcond hor hnot t after ht ih =>
    have hop := not_mem_clauseMarkers hcond hor hnot
    obtain ⟨args, written, htest, hargs, rfl⟩ := spells_readTest ht
    obtain ⟨r, hr, h⟩ := Result.map_eq_ok.1 h
    cases h
    obtain ⟨bytes, htook, hspells⟩ := ih hr
    refine ⟨_, (Cursor.took_byte hb).append (htest.append htook), ?_⟩
    rintro _ ⟨n, hn⟩
    have hcons := SpellsClauses.cons (.test (Pending.spellsTest hn hop hargs)) (hspells [] .start)
    simpa [Test.negate] using hcons
  | case12 negated c b next hb hcond hor hnot t after ht g ih =>
    have hop := not_mem_clauseMarkers hcond hor hnot
    obtain ⟨args, written, htest, hargs, rfl⟩ := spells_readTest ht
    obtain ⟨bytes, htook, hspells⟩ := ih h
    refine ⟨_, (Cursor.took_byte hb).append (htest.append htook), fun before hbefore => ?_⟩
    have hgroup := hspells _ (hbefore.adds hop hargs)
    simpa using hgroup

theorem toNat_ofNat_of_lt {n : Nat} (h : n < 2 ^ 32) : (UInt32.ofNat n).toNat = n := by
  rw [UInt32.toNat_ofNat', Nat.mod_eq_of_lt h]

/-- **What is taken for an instruction spells it.** -/
theorem spells_readInstruction {size : Nat} {c d : Cursor} {i : Instruction} (hsize : size < 2 ^ 32)
    (hoffset : c.offset < 2 ^ 32) (h : readInstruction set size c = .ok (i, d)) :
    ∃ bytes, Took c bytes d ∧
      SpellsInstruction set Opcode.clauseMarkers size c.offset i bytes := by
  have haddress := toNat_ofNat_of_lt hoffset
  obtain ⟨⟨b, next⟩, hb, h⟩ := Result.bind_eq_ok.1 h
  dsimp only at h
  have hbyte := Cursor.took_byte hb
  split at h
  · rename_i hcondition
    obtain ⟨⟨clauses, after⟩, hclauses, h⟩ := Result.bind_eq_ok.1 h
    obtain ⟨⟨skip, last⟩, hjump, h⟩ := Result.bind_eq_ok.1 h
    cases h
    obtain ⟨bytes, htook, hspells⟩ := spells_readClauses hclauses
    obtain ⟨w, hword, hspellsJump⟩ := Cursor.took_jump hsize hjump
    have hall := hbyte.append (htook.append hword)
    refine ⟨_, hall, hcondition ▸ .condition haddress (hspells [] .start) ?_⟩
    have hstop := hall.offset
    simp only [List.length_append, Word.bytes, List.length_cons, List.length_nil] at hstop
    rw [hstop] at hspellsJump
    have hlen : c.offset + (1 + (bytes.length + 2)) = c.offset + (bytes.length + 3) := by omega
    rw [← hlen]
    exact hspellsJump
  · split at h
    · rename_i hgoto
      obtain ⟨⟨target, last⟩, hjump, h⟩ := Result.bind_eq_ok.1 h
      cases h
      obtain ⟨w, hword, hspellsJump⟩ := Cursor.took_jump hsize hjump
      have hall := hbyte.append hword
      refine ⟨_, hall, hgoto ▸ .goto haddress ?_⟩
      rw [hall.offset] at hspellsJump
      exact hspellsJump
    · split at h
      · cases h
      · rename_i arity harity
        obtain ⟨⟨args, last⟩, hargs, h⟩ := Result.bind_eq_ok.1 h
        cases h
        obtain ⟨htook, rfl⟩ := Cursor.took_bytes hargs
        exact ⟨_, hbyte.append htook, .command haddress harity⟩

/-- **Decoded bytes spell the instructions.** -/
theorem spells_decodeFrom {size : Nat} {c : Cursor} {code : List Instruction} (hsize : size < 2 ^ 32)
    (hstop : c.stop ≤ size) (h : (decodeFrom set size c).result = .ok code) :
    ∃ pieces, SpellsFrom set Opcode.clauseMarkers size c.offset code pieces ∧
      c.rest = pieces.flatten := by
  fun_induction decodeFrom set size c generalizing code with
  | case1 c hempty =>
    cases h
    exact ⟨[], .nil, by simpa using hempty⟩
  | case2 => cases h
  | case3 c hne i next hread ih =>
    obtain ⟨_, _, h⟩ := Logged.result_bind_eq_ok.1 h
    obtain ⟨rest, hrest, rfl⟩ := Result.map_eq_ok.1 h
    have hoffset : c.offset < 2 ^ 32 := by
      rw [Cursor.stop] at hstop
      omega
    obtain ⟨bytes, htook, hspells⟩ := spells_readInstruction hsize hoffset hread
    have hnext : next.stop = c.stop := by
      rw [Cursor.stop, Cursor.stop, htook.offset, htook.rest, List.length_append, Nat.add_assoc]
    obtain ⟨pieces, hpieces, hflat⟩ := ih (hnext ▸ hstop) hrest
    rw [htook.offset] at hpieces
    exact ⟨bytes :: pieces, .cons hspells hpieces, by rw [htook.rest, hflat, List.flatten_cons]⟩

/-! ## What is spelled is taken -/

variable {reserved : List Opcode}

/-- **A spelled instruction is read.** -/
theorem readInstruction_spelled (hr : Opcode.clauseMarkers ⊆ reserved) {size offset : Nat}
    {i : Instruction} {bytes : List UInt8} (h : SpellsInstruction set reserved size offset i bytes)
    (rest : List UInt8) :
    readInstruction set size ⟨offset, bytes ++ rest⟩ =
      .ok (i, ⟨offset + bytes.length, rest⟩) := by
  cases h with
  | @command a op args ha h =>
    subst ha
    refine (readInstruction_command (c := ⟨op, args⟩) h size a.toNat rest).trans ?_
    rw [UInt32.ofNat_toNat]
    rfl
  | @goto a t w ha h =>
    subst ha
    have htarget := h.target
    have hdistance : (a.toNat : Int) + 3 + Word.signed w = t.toNat := by omega
    have hread := @readInstruction_goto set size _ _ _ (Word.fits_signed w) hdistance h.bound rest
    rw [Word.ofSigned_signed, UInt32.ofNat_toNat, UInt32.ofNat_toNat] at hread
    exact hread
  | @condition a t clauses bytes w ha hclauses h =>
    subst ha
    have htarget := h.target
    have hdistance : (a.toNat : Int) + 1 + bytes.length + 2 + Word.signed w = t.toNat := by omega
    have hread := readInstruction_condition (reads_clauses hr hclauses) (Word.fits_signed w)
      hdistance h.bound rest
    rw [Word.ofSigned_signed, UInt32.ofNat_toNat, UInt32.ofNat_toNat] at hread
    have hlen : a.toNat + (Opcode.conditionMarker :: (bytes ++ Word.bytes w)).length =
        a.toNat + 1 + bytes.length + 2 := by
      simp only [List.length_cons, List.length_append, Word.bytes, List.length_nil]
      omega
    rw [hlen]
    exact hread

theorem SpellsInstruction.ne_nil {size offset : Nat} {i : Instruction} {bytes : List UInt8}
    (h : SpellsInstruction set reserved size offset i bytes) : bytes ≠ [] := by
  cases h <;> exact List.cons_ne_nil _ _

/-- Spelled instructions are decoded, one after the other. -/
theorem decodeFrom_spelled (hr : Opcode.clauseMarkers ⊆ reserved) {size offset : Nat}
    {code : List Instruction} {pieces : List (List UInt8)}
    (h : SpellsFrom set reserved size offset code pieces) :
    (decodeFrom set size ⟨offset, pieces.flatten⟩).result = .ok code := by
  induction h with
  | nil =>
    rw [decodeFrom]
    rfl
  | cons h _ ih => exact decodeFrom_cons h.ne_nil (readInstruction_spelled hr h _) ih

/-- Bytes that spell instructions are decoded to them. -/
theorem decode_of_spells (hr : Opcode.clauseMarkers ⊆ reserved) {code : List Instruction}
    {bytes : List UInt8} (h : Spells set reserved code bytes) :
    (decode set bytes).result = .ok code := by
  obtain ⟨pieces, hpieces, hbytes⟩ := h
  have hdecode := decodeFrom_spelled hr hpieces
  rw [← hbytes] at hdecode
  exact Logged.result_bind_eq_ok.2 ⟨code, hdecode, rfl⟩

/-- Decoded bytes spell what they are decoded to. -/
theorem spells_of_decode {bytes : List UInt8} {code : List Instruction}
    (hlen : bytes.length < 2 ^ 32) (h : (decode set bytes).result = .ok code) :
    Spells set Opcode.clauseMarkers code bytes := by
  obtain ⟨instructions, hdecode, h⟩ := Logged.result_bind_eq_ok.1 h
  obtain ⟨_, _, h⟩ := Logged.result_bind_eq_ok.1 h
  cases h
  exact spells_decodeFrom hlen (Nat.le_of_eq (Nat.zero_add _)) hdecode

/-- **The decoder accepts exactly the grammar.** Bytes are decoded to instructions if and only if
they are the bytes of these instructions, one after the other, so they are those of one list of
instructions at most. The opcode of a test may be anything but a marker of clauses: a goto marker
that is configured as a test is one. -/
theorem decode_eq_ok_iff_spells (set : CommandSet) (bytes : List UInt8)
    (hlen : bytes.length < 2 ^ 32) :
    (∀ code, (decode set bytes).result = .ok code ↔ Spells set Opcode.clauseMarkers code bytes) ∧
      ∀ code code', Spells set Opcode.clauseMarkers code bytes →
        Spells set Opcode.clauseMarkers code' bytes → code = code' := by
  refine ⟨fun code => ⟨spells_of_decode hlen, decode_of_spells (List.Subset.refl _)⟩, ?_⟩
  intro code code' h h'
  have hcode := decode_of_spells (List.Subset.refl _) h
  have hcode' := decode_of_spells (List.Subset.refl _) h'
  exact Except.ok.inj (hcode.symm.trans hcode')

/-- A condition with more negations than it needs: three before a test, two before each marker. -/
def negatedBytes : List UInt8 :=
  [0xFF, 0xFD, 0xFD, 0xFD, 7, 5, 0xFD, 0xFD, 0xFC, 9, 2, 0xFD, 14, 1, 44, 1, 0xFD, 0xFD, 0xFC, 0xFD,
    0xFD, 0xFF, 2, 0, 12, 5, 0]

/-- What `negatedBytes` spells. -/
def negatedCode : List Instruction :=
  [.condition 0 [.test ⟨7, [5], true⟩, .anyOf [⟨9, [2], false⟩, ⟨14, [300], true⟩]] (some 26),
    .command 24 ⟨12, [5]⟩, .command 26 ⟨0, []⟩]

theorem spells_negatedBytes : Spells {} Opcode.clauseMarkers negatedCode negatedBytes := by
  have hset : SpellsTest {} Opcode.clauseMarkers ⟨7, [5], true⟩ [0xFD, 0xFD, 0xFD, 7, 5] :=
    .mk 3 (by decide) (@SpellsArgs.fixed {} 7 [5] (by decide +kernel))
  have hhas : SpellsTest {} Opcode.clauseMarkers ⟨9, [2], false⟩ [9, 2] :=
    .mk 0 (by decide) (@SpellsArgs.fixed {} 9 [2] (by decide +kernel))
  have hsaid : SpellsTest {} Opcode.clauseMarkers ⟨14, [300], true⟩ [0xFD, 14, 1, 44, 1] :=
    .mk 1 (by decide) (.counted (by decide +kernel) rfl)
  have hgroup : SpellsClause {} Opcode.clauseMarkers (.anyOf [⟨9, [2], false⟩, ⟨14, [300], true⟩])
      [0xFD, 0xFD, 0xFC, 9, 2, 0xFD, 14, 1, 44, 1, 0xFD, 0xFD, 0xFC] :=
    .anyOf 1 1 (by simp) (.cons hhas (.cons hsaid .nil))
  have hclauses := SpellsClauses.cons (.test hset) (.cons hgroup (.nil 1))
  refine ⟨_, .cons (.condition rfl hclauses (w := 2) ⟨by decide, by decide⟩)
    (.cons (.command rfl (by decide +kernel)) (.cons (.command rfl (by decide +kernel)) .nil)), rfl⟩

theorem decode_eq_ok_iff_spells_negatedBytes :
    negatedBytes.length < 2 ^ 32 ∧ (decode {} negatedBytes).result = .ok negatedCode := by
  have hlen : negatedBytes.length < 2 ^ 32 := by decide
  exact ⟨hlen, ((decode_eq_ok_iff_spells {} negatedBytes hlen).1 _).2 spells_negatedBytes⟩

/-- A condition whose test has the opcode that marks gotos elsewhere. -/
def gotoTestBytes : List UInt8 := [0xFF, 0xFE, 0, 0xFF, 0, 0]

/-- If the goto marker is configured as a test, it is accepted as one. So in the grammar it must not
be reserved together with the markers of clauses. -/
theorem not_spells_gotoTestBytes :
    gotoTestBytes.length < 2 ^ 32 ∧
      (decode ⟨[Opcode.gotoMarker]⟩ gotoTestBytes).result =
        .ok [.condition 0 [.test ⟨Opcode.gotoMarker, [], false⟩] (some 6)] ∧
      ¬Spells ⟨[Opcode.gotoMarker]⟩ (Opcode.gotoMarker :: Opcode.clauseMarkers)
        [.condition 0 [.test ⟨Opcode.gotoMarker, [], false⟩] (some 6)] gotoTestBytes := by
  refine ⟨by decide, decode_of_spells (List.Subset.refl _) ?_, ?_⟩
  · have htest : SpellsTest ⟨[Opcode.gotoMarker]⟩ Opcode.clauseMarkers ⟨Opcode.gotoMarker, [], false⟩
        [0xFE, 0] := .mk 0 (by decide) (.counted (by decide) rfl)
    have hclauses := SpellsClauses.cons (.test htest) (.nil 0)
    exact ⟨_, .cons (.condition rfl hclauses (w := 0) ⟨by decide, by decide⟩) .nil, rfl⟩
  · rintro ⟨pieces, hpieces, _⟩
    cases hpieces with
    | cons h _ =>
      cases h with
      | condition _ hclauses _ =>
        cases hclauses with
        | cons hclause _ =>
          cases hclause with
          | test htest => exact htest.not_mem_reserved List.mem_cons_self

end Bytecode
end AdventureLogic
