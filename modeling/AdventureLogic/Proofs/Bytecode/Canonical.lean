import AdventureLogic.Proofs.Bytecode.Accepted

/-!
# Assembling undoes decoding on canonical code

Code that has been decoded and is assembled again loses the negations that
cancel, and nothing else. So each instruction takes no more bytes than before,
and jumps get shorter; none of them gets too long. If nothing is lost, all
instructions stand where they stood, and every distance is the one that was
read.

Negations cancel where two of them stand next to each other, and what counts is
where the reader looks for a marker, not the bytes of arguments
(`Bytecode.markerBytes`).

Key definitions: `Bytecode.markerBytes`, `Bytecode.DoubleNot`,
`Bytecode.Condensed`, `Bytecode.Rewritten`. Key theorems:
`Bytecode.condensed_clause`, `Bytecode.SpellsFrom.not_longJump`,
`Bytecode.assemble_of_decode`.
-/

namespace AdventureLogic
namespace Bytecode

open Program (addresses)

variable {set : CommandSet} {reserved : List Opcode}

/-! ## Marker positions -/

/-- How many of the bytes after the opcode of a test are its arguments. -/
def argsLength (set : CommandSet) (op : Opcode) (rest : List UInt8) : Nat :=
  match set.testArity? op with
  | none => 0
  | some (.fixed count) => count
  | some .counted => 2 * (rest.headD 0).toNat + 1

/-- The bytes of clauses that are no arguments, up to the marker that closes the condition. -/
def markerBytes (set : CommandSet) : List UInt8 → List UInt8
  | [] => []
  | b :: rest =>
    if b = Opcode.conditionMarker then [b]
    else if b ∈ Opcode.clauseMarkers then b :: markerBytes set rest
    else b :: markerBytes set (rest.drop (argsLength set b rest))
termination_by bytes => bytes.length

/-- Among the clauses there is a negation right after another one. -/
def DoubleNot (set : CommandSet) (bytes : List UInt8) : Prop :=
  [Opcode.notMarker, Opcode.notMarker] <:+: markerBytes set bytes

theorem markerBytes_end (rest : List UInt8) :
    markerBytes set (Opcode.conditionMarker :: rest) = [Opcode.conditionMarker] := by
  rw [markerBytes, if_pos rfl]

theorem markerBytes_marker {b : UInt8} (hne : b ≠ Opcode.conditionMarker)
    (hb : b ∈ Opcode.clauseMarkers) (rest : List UInt8) :
    markerBytes set (b :: rest) = b :: markerBytes set rest := by
  rw [markerBytes, if_neg hne, if_pos hb]

theorem markerBytes_nots (n : Nat) (rest : List UInt8) :
    markerBytes set (nots n ++ rest) = nots n ++ markerBytes set rest := by
  induction n with
  | zero => rfl
  | succ n ih =>
    rw [nots_succ, List.cons_append, markerBytes_marker (by decide) (by decide), ih]
    rfl

theorem length_flatMap_bytes (ws : List UInt16) :
    (ws.flatMap Word.bytes).length = 2 * ws.length := by
  induction ws with
  | nil => rfl
  | cons w ws ih =>
    rw [List.flatMap_cons, List.length_append, ih, List.length_cons, Word.bytes]
    simp only [List.length_cons, List.length_nil]
    omega

theorem argsLength_of_spells {op : Opcode} {args : List UInt16} {bytes : List UInt8}
    (h : SpellsArgs set op args bytes) (rest : List UInt8) :
    argsLength set op (bytes ++ rest) = bytes.length := by
  cases h with
  | fixed h => rw [argsLength, h]
  | counted h hcount =>
    rw [argsLength, h, List.length_cons, length_flatMap_bytes, ← hcount]
    rfl

/-- The arguments of a test are passed over. -/
theorem markerBytes_opcode {op : Opcode} (hop : op ∉ Opcode.clauseMarkers) {args : List UInt16}
    {bytes : List UInt8} (h : SpellsArgs set op args bytes) (rest : List UInt8) :
    markerBytes set (op :: (bytes ++ rest)) = op :: markerBytes set rest := by
  have hne : op ≠ Opcode.conditionMarker := by
    rintro rfl
    exact hop (by decide)
  rw [markerBytes, if_neg hne, if_neg hop, argsLength_of_spells h, List.drop_left]

/-- Negations before something else: two of them stand together if there are two, or later. -/
theorem double_nots_iff {b : UInt8} (hb : b ≠ Opcode.notMarker) (rest : List UInt8) :
    ∀ n : Nat, [Opcode.notMarker, Opcode.notMarker] <:+: nots n ++ b :: rest ↔
      2 ≤ n ∨ [Opcode.notMarker, Opcode.notMarker] <:+: rest
  | 0 => by simp [nots, List.infix_cons_iff, hb.symm]
  | 1 => by simp [nots, List.infix_cons_iff, hb.symm]
  | n + 2 => by simp [nots_succ, List.infix_cons_iff]

/-! ## What is written again -/

/-- Of some bytes of clauses, the negations that cancel have been left out, and nothing else. -/
structure Condensed (set : CommandSet) (bytes written : List UInt8) : Prop where
  le : written.length ≤ bytes.length
  eq : written.length = bytes.length → written = bytes
  double : ∀ more, DoubleNot set (bytes ++ more) ↔
    written.length < bytes.length ∨ DoubleNot set more

namespace Condensed

theorem nil (set : CommandSet) : Condensed set [] [] := ⟨Nat.le_refl _, fun _ => rfl, by simp⟩

theorem append {bytes bytes' written written' : List UInt8} (h : Condensed set bytes written)
    (h' : Condensed set bytes' written') : Condensed set (bytes ++ bytes') (written ++ written') := by
  have hle := h.le
  have hle' := h'.le
  refine ⟨?_, fun heq => ?_, fun more => ?_⟩
  · simp only [List.length_append]
    omega
  · simp only [List.length_append] at heq
    rw [h.eq (by omega), h'.eq (by omega)]
  · rw [List.append_assoc, h.double, h'.double, ← or_assoc, List.length_append, List.length_append]
    refine or_congr_left ⟨fun hlt => ?_, fun hlt => ?_⟩
    · omega
    · omega

/-- Negations before an opcode or a marker: those of an even number go, one of an odd number
stays. -/
theorem nots {front : List UInt8} {b : UInt8} (hb : b ≠ Opcode.notMarker)
    (hfront : ∀ more, markerBytes set (b :: (front ++ more)) = b :: markerBytes set more) (n : Nat) :
    Condensed set (nots n ++ b :: front) (nots (n % 2) ++ b :: front) := by
  refine ⟨?_, fun heq => ?_, fun more => ?_⟩
  · simp only [List.length_append, length_nots]
    omega
  · simp only [List.length_append, length_nots] at heq
    rw [show n % 2 = n by omega]
  · rw [DoubleNot, List.append_assoc, List.cons_append, markerBytes_nots, hfront,
      double_nots_iff hb]
    simp only [List.length_append, length_nots]
    refine or_congr_left ⟨fun hlt => ?_, fun hlt => ?_⟩
    · omega
    · omega

theorem orMarker (n : Nat) :
    Condensed set (Bytecode.nots (2 * n) ++ [Opcode.orMarker]) [Opcode.orMarker] := by
  have hor : ∀ more, markerBytes set (Opcode.orMarker :: ([] ++ more)) =
      Opcode.orMarker :: markerBytes set more :=
    fun more => markerBytes_marker (by decide) (by decide) more
  have h := nots (by decide) hor (2 * n)
  simpa [Bytecode.nots] using h

end Condensed

/-- The arguments of a test are written as they were spelled. -/
theorem encodeTest_of_spells {op : Opcode} {args : List UInt16} {bytes : List UInt8}
    (h : SpellsArgs set op args bytes) (n : Nat) :
    encodeTest set ⟨op, args, n % 2 = 1⟩ = .ok (nots (n % 2) ++ op :: bytes) := by
  have hhead : (if decide (n % 2 = 1) = true then [Opcode.notMarker] else []) ++ [op] =
      nots (n % 2) ++ [op] := by
    rcases Nat.mod_two_eq_zero_or_one n with hn | hn
    · simp [hn, nots]
    · simp [hn, nots]
  unfold encodeTest
  dsimp only
  rw [hhead]
  cases h with
  | fixed h =>
    have hbytes : ((bytes.map UInt8.toUInt16).find? fun v => 255 < v.toNat) = none := by
      rw [List.find?_eq_none]
      intro v hv
      obtain ⟨b, _, rfl⟩ := List.mem_map.1 hv
      have := b.toNat_lt
      simp
      omega
    have hround : (bytes.map UInt8.toUInt16).map UInt16.toUInt8 = bytes := by
      rw [List.map_map]
      exact (List.map_congr_left fun b _ => UInt8.toUInt8_toUInt16 b).trans (List.map_id _)
    rw [h]
    dsimp only
    rw [hbytes, hround, List.append_assoc]
    rfl
  | @counted count _ h hcount =>
    have hlen : args.length ≤ 255 := hcount ▸ Nat.le_of_lt_succ count.toNat_lt
    rw [h]
    dsimp only
    rw [if_pos hlen, ← hcount, UInt8.ofNat_toNat, List.append_assoc]
    rfl

section Clauses

variable (hr : Opcode.clauseMarkers ⊆ reserved)
include hr

theorem condensed_test {t : Test} {bytes : List UInt8} (h : SpellsTest set reserved t bytes) :
    ∃ written, encodeTest set t = .ok written ∧ Condensed set bytes written := by
  obtain @⟨op, args, bytes, n, hop, hargs⟩ := h
  have hop' : op ∉ Opcode.clauseMarkers := fun hm => hop (hr hm)
  have hne : op ≠ Opcode.notMarker := by
    rintro rfl
    exact hop' (by decide)
  exact ⟨_, encodeTest_of_spells hargs n, .nots hne (markerBytes_opcode hop' hargs) n⟩

theorem condensed_tests {ts : List Test} {pieces : List (List UInt8)}
    (h : List.Forall₂ (SpellsTest set reserved) ts pieces) :
    ∃ written, List.Forall₂ (fun t bytes => encodeTest set t = .ok bytes) ts written ∧
      Condensed set pieces.flatten written.flatten := by
  induction h with
  | nil => exact ⟨[], .nil, .nil set⟩
  | cons ht _ ih =>
    obtain ⟨first, hfirst, hcondensed⟩ := condensed_test hr ht
    obtain ⟨rest, hrest, hcondensed'⟩ := ih
    exact ⟨first :: rest, .cons hfirst hrest, hcondensed.append hcondensed'⟩

/-- **A clause is written as it was spelled, without the negations that cancel.** -/
theorem condensed_clause {clause : Clause} {bytes : List UInt8}
    (h : SpellsClause set reserved clause bytes) :
    ∃ written, encodeClause set clause = .ok written ∧ Condensed set bytes written := by
  cases h with
  | test h => exact condensed_test hr h
  | @anyOf ts pieces m n _ h =>
    obtain ⟨written, hwritten, hcondensed⟩ := condensed_tests hr h
    refine ⟨_, Result.bind_eq_ok.2 ⟨written, Result.mapM_eq_ok.2 hwritten, rfl⟩, ?_⟩
    have hall := (Condensed.orMarker m).append (hcondensed.append (Condensed.orMarker n))
    simpa using hall

/-- The clauses of a condition, with the marker that closes them, after which nothing counts. -/
theorem condensed_clauses {clauses : List Clause} {bytes : List UInt8}
    (h : SpellsClauses set reserved clauses bytes) :
    ∃ written, List.Forall₂ (fun c bytes => encodeClause set c = .ok bytes) clauses written ∧
      (written.flatten ++ [Opcode.conditionMarker]).length ≤ bytes.length ∧
      ((written.flatten ++ [Opcode.conditionMarker]).length = bytes.length →
        written.flatten ++ [Opcode.conditionMarker] = bytes) ∧
      ∀ more, DoubleNot set (bytes ++ more) ↔
        (written.flatten ++ [Opcode.conditionMarker]).length < bytes.length := by
  induction h with
  | nil n =>
    refine ⟨[], .nil, by simp, fun heq => ?_, fun more => ?_⟩
    · obtain rfl : n = 0 := by
        simp at heq
        omega
      rfl
    · rw [DoubleNot, List.append_assoc, markerBytes_nots, List.singleton_append, markerBytes_end,
        double_nots_iff (by decide)]
      simp
      omega
  | @cons clause clauses bytes rest hc _ ih =>
    obtain ⟨first, hfirst, hcondensed⟩ := condensed_clause hr hc
    obtain ⟨written, hwritten, hle', heq', hdouble'⟩ := ih
    have hle := hcondensed.le
    refine ⟨first :: written, .cons hfirst hwritten, ?_⟩
    rw [List.flatten_cons, List.append_assoc]
    generalize written.flatten ++ [Opcode.conditionMarker] = closed at hle' heq' hdouble' ⊢
    rw [List.length_append, List.length_append]
    refine ⟨by omega, fun heq => ?_, fun more => ?_⟩
    · rw [hcondensed.eq (by omega), heq' (by omega)]
    · rw [List.append_assoc, hcondensed.double, hdouble']
      omega

end Clauses

/-- What an instruction at an offset has become of when it is written again. -/
structure Rewritten (set : CommandSet) (size offset : Nat) (i : Instruction)
    (bytes written : List UInt8) : Prop where
  encode : encodeInstruction set i = .ok written
  le : written.length ≤ bytes.length
  /-- It is shorter exactly if it is a condition with a double negation. -/
  double : ∀ more, i.isCondition = true ∧ DoubleNot set ((bytes ++ more).drop 1) ↔
    written.length < bytes.length
  straight : i.target? = none → bytes = written
  /-- The distance of a jump is left open. -/
  jump : ∀ t, i.target? = some t → ∃ w front, SpellsJump size (offset + bytes.length) w t ∧
    written = front ++ [0, 0] ∧ (written.length = bytes.length → bytes = front ++ Word.bytes w)

theorem exists_rewritten (hr : Opcode.clauseMarkers ⊆ reserved) {size offset : Nat} {i : Instruction}
    {bytes : List UInt8} (h : SpellsInstruction set reserved size offset i bytes) :
    ∃ written, Rewritten set size offset i bytes written := by
  cases h with
  | command ha h =>
    refine ⟨_, rfl, Nat.le_refl _, ?_, fun _ => rfl, fun t ht => by cases ht⟩
    simp [Instruction.isCondition]
  | @goto a t w ha h =>
    refine ⟨_, rfl, Nat.le_refl _, ?_, fun ht => (by cases ht), fun t' ht => ?_⟩
    · simp [Instruction.isCondition, Word.bytes]
    · cases ht
      exact ⟨w, [Opcode.gotoMarker], h, rfl, fun _ => rfl⟩
  | @condition a t clauses bytes w ha hclauses h =>
    obtain ⟨written, hwritten, hle, heq, hdouble⟩ := condensed_clauses hr hclauses
    have hencode : encodeInstruction set (.condition a clauses (some t)) =
        .ok (Opcode.conditionMarker :: (written.flatten ++ [Opcode.conditionMarker]) ++ [0, 0]) := by
      refine Result.bind_eq_ok.2 ⟨written, Result.mapM_eq_ok.2 hwritten, ?_⟩
      simp [pure, Except.pure]
    generalize written.flatten ++ [Opcode.conditionMarker] = closed at hle heq hdouble hencode
    have hlen : (Opcode.conditionMarker :: (bytes ++ Word.bytes w)).length = bytes.length + 3 := by
      simp [Word.bytes]
    have hlen' : (Opcode.conditionMarker :: closed ++ [0, 0]).length = closed.length + 3 := by simp
    refine ⟨_, hencode, ?_, fun more => ?_, fun ht => (by cases ht), fun t' ht => ?_⟩
    · rw [hlen, hlen']
      omega
    · have hdrop : (Opcode.conditionMarker :: (bytes ++ Word.bytes w) ++ more).drop 1 =
          bytes ++ (Word.bytes w ++ more) := by simp
      rw [hdrop, hdouble, hlen, hlen', Nat.add_lt_add_iff_right]
      exact and_iff_right rfl
    · cases ht
      refine ⟨w, Opcode.conditionMarker :: closed, hlen ▸ h, rfl, fun hsame => ?_⟩
      rw [hlen, hlen'] at hsame
      rw [heq (by omega)]
      rfl

/-! ## Offsets -/

theorem SpellsInstruction.address {size offset : Nat} {i : Instruction} {bytes : List UInt8}
    (h : SpellsInstruction set reserved size offset i bytes) : i.address.toNat = offset := by
  cases h with
  | command ha _ => exact ha
  | goto ha _ => exact ha
  | condition ha _ _ => exact ha

/-- The number of bytes before a piece. -/
def startAt (pieces : List (List UInt8)) (n : Nat) : Nat := (pieces.take n).flatten.length

theorem startAt_succ {pieces : List (List UInt8)} {n : Nat} {bytes : List UInt8}
    (h : pieces[n]? = some bytes) : startAt pieces (n + 1) = startAt pieces n + bytes.length := by
  rw [startAt, List.take_add_one, h, List.flatten_append, List.length_append, startAt]
  simp

theorem offsetAt_succ {code : List Instruction} {n : Nat} {i : Instruction}
    (h : code[n]? = some i) : offsetAt set code (n + 1) = offsetAt set code n + size set i := by
  rw [offsetAt, List.take_add_one, h, List.map_append, List.sum_append, offsetAt]
  simp

theorem Rewritten.size_eq {bound offset : Nat} {i : Instruction} {bytes written : List UInt8}
    (h : Rewritten set bound offset i bytes written) : size set i = written.length := by
  rw [size, h.encode]
  rfl

namespace SpellsFrom

variable {bound : Nat} {code : List Instruction} {pieces : List (List UInt8)}

theorem length_eq {offset : Nat} (h : SpellsFrom set reserved bound offset code pieces) :
    pieces.length = code.length := by
  induction h with
  | nil => rfl
  | cons _ _ ih => rw [List.length_cons, List.length_cons, ih]

/-- The instruction at a position stands after the pieces before its own. -/
theorem exists_piece {offset : Nat} (h : SpellsFrom set reserved bound offset code pieces) :
    ∀ {n : Nat} {i : Instruction}, code[n]? = some i → ∃ bytes, pieces[n]? = some bytes ∧
      SpellsInstruction set reserved bound (offset + startAt pieces n) i bytes := by
  induction h with
  | nil => exact fun hi => nomatch hi
  | @cons offset i code bytes pieces h _ ih =>
    intro n j hj
    cases n with
    | zero =>
      cases hj
      exact ⟨bytes, rfl, h⟩
    | succ n =>
      obtain ⟨bytes', hget, hspells⟩ := ih hj
      refine ⟨bytes', hget, ?_⟩
      rw [startAt, List.take_succ_cons, List.flatten_cons, List.length_append, ← Nat.add_assoc]
      exact hspells

variable (hr : Opcode.clauseMarkers ⊆ reserved) (h : SpellsFrom set reserved bound 0 code pieces)
include hr h

/-- What the instruction at a position has become of. -/
theorem exists_rewritten {n : Nat} {i : Instruction} (hi : code[n]? = some i) :
    ∃ bytes written, pieces[n]? = some bytes ∧ i.address.toNat = startAt pieces n ∧
      Rewritten set bound (startAt pieces n) i bytes written := by
  obtain ⟨bytes, hbytes, hspells⟩ := h.exists_piece hi
  rw [Nat.zero_add] at hspells
  obtain ⟨written, hwritten⟩ := Bytecode.exists_rewritten hr hspells
  exact ⟨bytes, written, hbytes, hspells.address, hwritten⟩

/-- **Instructions move closer together.** By induction on the later of two positions. -/
theorem offsetAt_le {m n : Nat} (hmn : m ≤ n) (hn : n ≤ code.length) :
    offsetAt set code m ≤ offsetAt set code n ∧
      offsetAt set code n + startAt pieces m ≤ startAt pieces n + offsetAt set code m := by
  induction n, hmn using Nat.le_induction with
  | base => exact ⟨Nat.le_refl _, Nat.le_of_eq (Nat.add_comm _ _)⟩
  | succ n _ ih =>
    obtain ⟨hmono, hcloser⟩ := ih (Nat.le_of_succ_le hn)
    have hget : code[n]? = some code[n] := List.getElem?_eq_getElem hn
    obtain ⟨bytes, written, hbytes, _, hrewritten⟩ := h.exists_rewritten hr hget
    have hle := hrewritten.le
    rw [offsetAt_succ hget, startAt_succ hbytes, hrewritten.size_eq]
    omega

/-- No jump gets too long: none was, and they all get shorter. -/
theorem not_longJump : ¬LongJump set code := by
  rintro ⟨m, n, i, j, hi, hj, ht, hlong⟩
  obtain ⟨bytes, written, hbytes, _, hrewritten⟩ := h.exists_rewritten hr hi
  obtain ⟨_, _, _, haddress, _⟩ := h.exists_rewritten hr hj
  obtain ⟨w, front, hjump, _⟩ := hrewritten.jump _ ht
  have hm : m + 1 ≤ code.length := (List.getElem?_eq_some_iff.1 hi).1
  have hn : n ≤ code.length := Nat.le_of_lt (List.getElem?_eq_some_iff.1 hj).1
  have hfits := Word.fits_signed w
  have htarget := hjump.target
  rw [← startAt_succ hbytes, haddress] at htarget
  refine hlong ?_
  unfold Word.Fits at hfits ⊢
  rcases Nat.le_total n (m + 1) with hle | hle
  · have := h.offsetAt_le hr hle hm
    omega
  · have := h.offsetAt_le hr hle hn
    omega

end SpellsFrom

/-! ## Byte for byte -/

/-- The length of assembled code is that of all its instructions. -/
theorem Assembled.length_eq_offsetAt {code : List Instruction} {bytes : List UInt8}
    {pieces : List Piece} (h : Assembled set code bytes pieces) :
    bytes.length = offsetAt set code code.length := by
  rw [h.length_eq, offsetAt, List.take_length, ← h.instructions, List.map_map]
  refine congrArg List.sum (List.map_congr_left fun p hp => ?_)
  rw [Function.comp_apply, size, h.placed.encode p hp]
  rfl

/-- No instruction takes fewer bytes than those it was spelled with. -/
def Tight (set : CommandSet) (code : List Instruction) (pieces : List (List UInt8)) : Prop :=
  ∀ (n : Nat) (i : Instruction) (bytes : List UInt8), code[n]? = some i →
    pieces[n]? = some bytes → size set i = bytes.length

section Canonical

variable {bound : Nat} {code : List Instruction} {pieces : List (List UInt8)}
  (hr : Opcode.clauseMarkers ⊆ reserved) (h : SpellsFrom set reserved bound 0 code pieces)
include hr h

/-- Where no instruction gets shorter, none moves. -/
theorem offsetAt_eq (hsame : Tight set code pieces) :
    ∀ {n : Nat}, n ≤ code.length → offsetAt set code n = startAt pieces n
  | 0, _ => rfl
  | n + 1, hn => by
    have hget : code[n]? = some code[n] := List.getElem?_eq_getElem hn
    obtain ⟨bytes, _, hbytes, _⟩ := h.exists_rewritten hr hget
    rw [offsetAt_succ hget, startAt_succ hbytes, offsetAt_eq hsame (Nat.le_of_succ_le hn),
      hsame n _ _ hget hbytes]

/-- Then each piece is written as it was spelled. -/
theorem fillIn_eq_piece {written : List UInt8} {placed : List Piece}
    (ha : Assembled set code written placed) (hsame : Tight set code pieces) {n : Nat} {p : Piece}
    {bytes filled : List UInt8} (hp : placed[n]? = some p) (hbytes : pieces[n]? = some bytes)
    (hfill : (fillIn (tableOf placed) p).result = .ok filled) : filled = bytes := by
  have hinstruction : ∀ {k : Nat} {q : Piece}, placed[k]? = some q →
      code[k]? = some q.instruction := by
    intro k q hq
    rw [← ha.instructions, List.getElem?_map, hq]
    rfl
  have hlt : ∀ {k : Nat} {q : Piece}, placed[k]? = some q → k < code.length := fun hq =>
    (List.getElem?_eq_some_iff.1 (hinstruction hq)).1
  have hi := hinstruction hp
  obtain ⟨_, written', hbytes', _, hrewritten⟩ := h.exists_rewritten hr hi
  cases hbytes.symm.trans hbytes'
  have hpbytes : p.bytes = written' := by
    have hencode := ha.placed.encode p (List.mem_of_getElem? hp)
    rw [hrewritten.encode] at hencode
    exact (Except.ok.inj hencode).symm
  have hlength : written'.length = bytes.length := by
    rw [← hrewritten.size_eq, hsame n _ _ hi hbytes]
  rcases fillIn_eq_ok hfill with ⟨hnone, rfl⟩ | ⟨t, target, ht, hfound, _, rfl⟩
  · rw [hpbytes, hrewritten.straight hnone]
  · obtain ⟨w, front, hjump, hfront, hspelled⟩ := hrewritten.jump t ht
    -- the target stands where it stood, and so does the end of the instruction
    obtain ⟨q, hq, rfl⟩ := exists_of_offset?_tableOf hfound
    cases (offset?_tableOf (ha.addresses_eq ▸ ha.nodup) hq).symm.trans hfound
    obtain ⟨k, hk⟩ := List.mem_iff_getElem?.1 hq
    obtain ⟨_, _, _, haddress, _⟩ := h.exists_rewritten hr (hinstruction hk)
    have hdistance : distance p q.offset = Word.signed w := by
      have htarget := hjump.target
      have hqaddress : q.address.toNat = startAt pieces k := haddress
      have hn : n + 1 ≤ code.length := hlt hp
      rw [← startAt_succ hbytes, hqaddress] at htarget
      rw [ha.placed.distance_eq hp hk, ha.instructions,
        offsetAt_eq hr h hsame (Nat.le_of_lt (hlt hk)), offsetAt_eq hr h hsame hn]
      omega
    rw [hdistance, Word.ofSigned_signed, withWord_eq (hpbytes.trans hfront), hspelled hlength]

/-- **Code in which no negations cancel is assembled to the same bytes.** -/
theorem assembled_eq {written : List UInt8} {placed : List Piece}
    (ha : Assembled set code written placed) (hsame : Tight set code pieces) :
    written = pieces.flatten := by
  obtain ⟨filled, hfilled, rfl⟩ := ha.filled
  have hlen : filled.length = pieces.length := by
    rw [← hfilled.length_eq, h.length_eq, ← ha.instructions, List.length_map]
  congr 1
  refine List.ext_getElem hlen fun n hn hn' => ?_
  have hplaced : n < placed.length := hfilled.length_eq ▸ hn
  have hfill := hfilled.get hplaced hn
  exact fillIn_eq_piece hr h ha hsame (List.getElem?_eq_getElem hplaced)
    (List.getElem?_eq_getElem hn') hfill

/-- Code in which some instruction gets shorter gets shorter. -/
theorem length_assembled_lt {written : List UInt8} {placed : List Piece}
    (ha : Assembled set code written placed) {n : Nat} {i : Instruction} {bytes : List UInt8}
    (hi : code[n]? = some i) (hbytes : pieces[n]? = some bytes)
    (hlt : size set i < bytes.length) : written.length < pieces.flatten.length := by
  have hn : n + 1 ≤ code.length := (List.getElem?_eq_some_iff.1 hi).1
  have hbefore := (h.offsetAt_le hr (Nat.zero_le n) (Nat.le_of_succ_le hn)).2
  have hafter := (h.offsetAt_le hr hn (Nat.le_refl _)).2
  have hwhole : startAt pieces code.length = pieces.flatten.length := by
    rw [startAt, ← h.length_eq, List.take_length]
  have hstart : startAt pieces 0 = offsetAt set code 0 := rfl
  rw [offsetAt_succ hi, startAt_succ hbytes, hwhole] at hafter
  rw [ha.length_eq_offsetAt]
  omega

/-- An instruction gets shorter exactly if it is a condition with a double negation. -/
theorem doubleNot_iff {n : Nat} {i : Instruction} {bytes : List UInt8} (hi : code[n]? = some i)
    (hbytes : pieces[n]? = some bytes) :
    i.isCondition = true ∧ DoubleNot set (pieces.flatten.drop (i.address.toNat + 1)) ↔
      size set i < bytes.length := by
  obtain ⟨_, written, hbytes', haddress, hrewritten⟩ := h.exists_rewritten hr hi
  cases hbytes.symm.trans hbytes'
  obtain ⟨hn, rfl⟩ := List.getElem?_eq_some_iff.1 hbytes
  have hflatten : pieces.flatten =
      (pieces.take n).flatten ++ (pieces[n] ++ (pieces.drop (n + 1)).flatten) := by
    rw [← List.flatten_cons, ← List.drop_eq_getElem_cons hn, ← List.flatten_append,
      List.take_append_drop]
  rw [haddress, ← List.drop_drop, hflatten, startAt, List.drop_left, hrewritten.double,
    hrewritten.size_eq]

theorem tight_iff : Tight set code pieces ↔
    ¬∃ i ∈ code, i.isCondition = true ∧
      DoubleNot set (pieces.flatten.drop (i.address.toNat + 1)) := by
  constructor
  · rintro htight ⟨i, hi, hdouble⟩
    obtain ⟨n, hn⟩ := List.mem_iff_getElem?.1 hi
    obtain ⟨bytes, _, hbytes, _⟩ := h.exists_rewritten hr hn
    have hlt := (doubleNot_iff hr h hn hbytes).1 hdouble
    rw [htight n i bytes hn hbytes] at hlt
    exact Nat.lt_irrefl _ hlt
  · intro hnone n i bytes hi hbytes
    obtain ⟨_, written, hbytes', _, hrewritten⟩ := h.exists_rewritten hr hi
    cases hbytes.symm.trans hbytes'
    have hle := hrewritten.le
    rw [← hrewritten.size_eq] at hle
    refine Nat.le_antisymm hle (Nat.le_of_not_lt fun hlt => hnone ?_)
    exact ⟨i, List.mem_of_getElem? hi, (doubleNot_iff hr h hi hbytes).2 hlt⟩

end Canonical

/-- **Assembling undoes decoding on canonical code.** Decoded code can be assembled exactly if its
jumps lead to its instructions; nothing else goes wrong. It is assembled to the bytes that it was
decoded from exactly if no condition has a negation right after another one, and to fewer bytes
otherwise. -/
theorem assemble_of_decode (set : CommandSet) (bytes : List UInt8) (code : List Instruction)
    (hlen : bytes.length < 2 ^ 32) (h : (decode set bytes).result = .ok code) :
    ((∃ written, (assemble set code).result = .ok written) ↔
      ∀ i ∈ code, ∀ t, i.target? = some t → t ∈ addresses code) ∧
    (∀ e, (assemble set code).result = .error e → ∃ i ∈ code, ∃ t, i.target? = some t ∧
      t ∉ addresses code ∧ e = .danglingTarget i.address t) ∧
    ∀ written, (assemble set code).result = .ok written →
      (written = bytes ↔ ¬∃ i ∈ code, i.isCondition = true ∧
        DoubleNot set (bytes.drop (i.address.toNat + 1))) ∧
      (written ≠ bytes → written.length < bytes.length) := by
  have hdecoded := decoded_decode h (Nat.le_of_lt hlen)
  obtain ⟨pieces, hpieces, rfl⟩ := spells_of_decode hlen h
  have hr : Opcode.clauseMarkers ⊆ Opcode.clauseMarkers := List.Subset.refl _
  have hshort := hpieces.not_longJump hr
  refine ⟨?_, fun e he => ?_, fun written hwritten => ?_⟩
  · rw [exists_assemble_iff]
    exact ⟨fun hok => hok.1.target_mem, fun ht => ⟨⟨hdecoded.nodup, ht⟩, hdecoded.writable, hshort⟩⟩
  · rcases assemble_eq_error_of_nodup hdecoded.nodup hdecoded.writable he with hdangling | hlong
    · exact hdangling
    · exact absurd hlong.2 hshort
  · obtain ⟨placed, ha⟩ := exists_assembled hwritten
    have hlt : ¬Tight set code pieces → written.length < pieces.flatten.length := by
      intro hloose
      obtain ⟨i, hi, hdouble⟩ := Classical.not_not.1 (mt (tight_iff hr hpieces).2 hloose)
      obtain ⟨n, hn⟩ := List.mem_iff_getElem?.1 hi
      obtain ⟨bytes, _, hbytes, _⟩ := hpieces.exists_rewritten hr hn
      exact length_assembled_lt hr hpieces ha hn hbytes
        ((doubleNot_iff hr hpieces hn hbytes).1 hdouble)
    rw [← tight_iff hr hpieces]
    refine ⟨⟨fun heq => ?_, assembled_eq hr hpieces ha⟩, fun hne => hlt fun htight => ?_⟩
    · refine Classical.byContradiction fun hloose => ?_
      have hshorter := hlt hloose
      rw [heq] at hshorter
      exact Nat.lt_irrefl _ hshorter
    · exact hne (assembled_eq hr hpieces ha htight)

/-- The bytes that are written for `negatedCode`. -/
def condensedBytes : List UInt8 :=
  [0xFF, 0xFD, 7, 5, 0xFC, 9, 2, 0xFD, 14, 1, 44, 1, 0xFC, 0xFF, 2, 0, 12, 5, 0]

theorem assemble_of_decode_negatedBytes :
    negatedBytes.length < 2 ^ 32 ∧ (decode {} negatedBytes).result = .ok negatedCode ∧
      (assemble {} negatedCode).result = .ok condensedBytes ∧
      condensedBytes.length < negatedBytes.length ∧
      ∃ i ∈ negatedCode, i.isCondition = true ∧
        DoubleNot {} (negatedBytes.drop (i.address.toNat + 1)) := by
  have hlen : negatedBytes.length < 2 ^ 32 := by decide
  have hdecode : (decode {} negatedBytes).result = .ok negatedCode :=
    decode_of_spells (List.Subset.refl _) spells_negatedBytes
  have hassemble : (assemble {} negatedCode).result = .ok condensedBytes := by cbv
  have hne : condensedBytes ≠ negatedBytes := by decide
  obtain ⟨_, _, hwritten⟩ := assemble_of_decode {} negatedBytes negatedCode hlen hdecode
  obtain ⟨hiff, hshorter⟩ := hwritten condensedBytes hassemble
  exact ⟨hlen, hdecode, hassemble, hshorter hne, Classical.not_not.1 (mt hiff.2 hne)⟩

end Bytecode
end AdventureLogic
