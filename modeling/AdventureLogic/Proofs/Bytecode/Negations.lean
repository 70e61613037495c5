import AdventureLogic.Proofs.Bytecode.Resuming

/-!
# Negations without a test

Between its two markers a condition is a row of negations, markers of groups and
tests. A run of negations should stand before a test. If it stands before a
marker instead, nothing is there to be negated.

The reader remembers of a run only whether it is odd. So it finds a fault in an
odd run before a marker, at the marker, and takes an even one for no run at all
(`Bytecode.decode_doubledBytes`).

Key definitions: `Bytecode.Mark`, `Bytecode.LooseRun`. Key theorems:
`Bytecode.passes_marks`, `Bytecode.decode_looseRun`.
-/

namespace AdventureLogic
namespace Bytecode

variable {set : CommandSet}

/-- What may stand in a condition before the marker that closes it. -/
inductive Mark where
  | negation
  /-- Opens or closes a group. -/
  | group
  /-- An opcode and the bytes of its arguments. -/
  | test (op : Opcode) (args : List UInt8)
  deriving DecidableEq, Inhabited

namespace Mark

/-- The bytes of a mark. -/
def bytes : Mark → List UInt8
  | .negation => [Opcode.notMarker]
  | .group => [Opcode.orMarker]
  | .test op args => op :: args

/-- A test has the arguments that its opcode takes, and the opcode is no marker. -/
def Valid (set : CommandSet) : Mark → Prop
  | .negation | .group => True
  | .test op args => op ∉ Opcode.clauseMarkers ∧ ∃ ws, SpellsArgs set op ws args

/-- Whether a negation is pending after a mark. -/
def pending (negated : Bool) : Mark → Bool
  | .negation => !negated
  | .group | .test _ _ => false

end Mark

/-- The bytes of a row of marks. -/
def marksBytes (marks : List Mark) : List UInt8 := marks.flatMap Mark.bytes

/-! ## Marks -/

theorem Passes.append {group : Option OpenGroup} {negated negated' negated'' : Bool} {offset : Nat}
    {bytes bytes' : List UInt8} (h : Passes set group negated offset bytes negated')
    (h' : ∀ group', Passes set group' negated' (offset + bytes.length) bytes' negated'') :
    Passes set group negated offset (bytes ++ bytes') negated'' := by
  cases h with
  | fault why place h =>
    refine .fault why place fun rest => ?_
    rw [List.append_assoc]
    exact h _
  | through group' f h =>
    cases h' group' with
    | fault why place h' =>
      refine .fault why place fun rest => ?_
      rw [List.append_assoc, h, h']
      rfl
    | through group'' f' h' =>
      refine .through group'' (f ∘ f') fun rest => ?_
      rw [List.append_assoc, h, h', List.length_append, ← Nat.add_assoc]
      cases readClauses set group'' negated'' ⟨offset + bytes.length + bytes'.length, rest⟩ <;> rfl

/-- Every mark is passed, and it says whether a negation is pending after it. -/
theorem passes_mark {m : Mark} (hm : m.Valid set) (group : Option OpenGroup) (negated : Bool)
    (offset : Nat) : Passes set group negated offset m.bytes (m.pending negated) := by
  cases m with
  | negation => exact passes_notMarker group negated offset
  | group => exact passes_orMarker group negated offset
  | test op args =>
    obtain ⟨hop, ws, hargs⟩ := hm
    have htest := readClauses_opcode (t := ⟨op, ws, false⟩) hop (reads_args hargs) group negated
      offset
    cases group with
    | none => exact .through none (.test ⟨op, ws, negated⟩ :: ·) htest
    | some g =>
      refine .through (some (g.add ⟨op, ws, negated⟩)) id fun rest => (htest rest).trans ?_
      exact (map_id _).symm

/-- **A row of marks is passed, or a fault is found in it.** -/
theorem passes_marks : ∀ {marks : List Mark}, (∀ m ∈ marks, m.Valid set) →
    ∀ (group : Option OpenGroup) (negated : Bool) (offset : Nat),
      Passes set group negated offset (marksBytes marks) (marks.foldl Mark.pending negated)
  | [], _, group, negated, offset => .through group id fun _ => (map_id _).symm
  | m :: marks, hmarks, group, negated, offset => by
    obtain ⟨hm, hmarks⟩ := List.forall_mem_cons.1 hmarks
    exact (passes_mark hm group negated offset).append fun group' =>
      passes_marks hmarks group' (m.pending negated) _

/-- After a row that does not end in a negation none is pending. -/
theorem pending_eq_false {marks : List Mark} (h : marks.getLast? ≠ some .negation) :
    marks.foldl Mark.pending false = false := by
  rcases List.eq_nil_or_concat marks with rfl | ⟨front, m, rfl⟩
  · rfl
  · rw [List.concat_eq_append] at h ⊢
    rw [List.foldl_concat]
    cases m with
    | negation => simp at h
    | group => rfl
    | test op args => rfl

/-- A pending negation makes both markers a fault. -/
theorem exists_fault_of_pending (set : CommandSet) (group : Option OpenGroup) (offset : Nat)
    {marker : Opcode} (hmarker : marker = Opcode.orMarker ∨ marker = Opcode.conditionMarker)
    (rest : List UInt8) :
    ∃ why, readClauses set group true ⟨offset, marker :: rest⟩ =
      .error (.invalidCondition why offset) := by
  rcases hmarker with rfl | rfl
  · exact ⟨.negatedGroup, by rw [readClauses]; rfl⟩
  · cases group with
    | none => exact ⟨.danglingNegation, by rw [readClauses]; rfl⟩
    | some g => exact ⟨.unterminatedGroup, by rw [readClauses]; rfl⟩

/-! ## Code -/

/-- Code that can be read is read before what follows it. -/
theorem decodeFrom_extend {size : Nat} {c : Cursor} {code : List Instruction}
    (h : (decodeFrom set size c).result = .ok code) (more : List UInt8) :
    (decodeFrom set size (c.extend more)).result =
      (decodeFrom set size ⟨c.stop, more⟩).result.map (code ++ ·) := by
  fun_induction decodeFrom set size c generalizing code with
  | case1 c hempty =>
    obtain ⟨offset, rest⟩ := c
    obtain rfl : rest = [] := by simpa using hempty
    cases h
    show (decodeFrom set size ⟨offset, more⟩).result =
      (decodeFrom set size ⟨offset, more⟩).result.map ([] ++ ·)
    cases (decodeFrom set size ⟨offset, more⟩).result <;> rfl
  | case2 => cases h
  | case3 c hne i next hread ih =>
    obtain ⟨_, _, h⟩ := Logged.result_bind_eq_ok.1 h
    obtain ⟨rest, hrest, rfl⟩ := Result.map_eq_ok.1 h
    have hcontinues := continues_readInstruction set (Nat.le_refl size) more c
    rw [hread] at hcontinues
    obtain ⟨hstop, hnext⟩ := hcontinues.eq_ok
    rw [result_decodeFrom (extend_ne_nil (by simpa using hne) more), hnext]
    show (decodeFrom set size (next.extend more)).result.map _ = _
    rw [ih hrest, hstop]
    cases (decodeFrom set size ⟨c.stop, more⟩).result <;> rfl

/-- A fault in the clauses of a condition is one of the code, if the code before it can be read. -/
theorem decodeFrom_condition_error {size : Nat} {before body : List UInt8} {e : Error}
    (hbefore : ∃ program, (decodeFrom set size (Cursor.start before)).result = .ok program)
    (h : readClauses set none false ⟨before.length + 1, body⟩ = .error e) :
    (decodeFrom set size (Cursor.start (before ++ Opcode.conditionMarker :: body))).result =
      .error e := by
  obtain ⟨program, hprogram⟩ := hbefore
  have hstop : (Cursor.start before).stop = before.length := Nat.zero_add _
  have hread : readInstruction set size ⟨before.length, Opcode.conditionMarker :: body⟩ =
      .error e := by
    rw [readInstruction_cons, readRest, if_pos rfl]
    exact Result.bind_eq_error.2 (.inl h)
  refine (decodeFrom_extend hprogram (Opcode.conditionMarker :: body)).trans ?_
  rw [hstop, result_decodeFrom (List.cons_ne_nil _ _), hread]
  rfl

/-- A run of negations in a condition of the code, with a marker after it instead of a test. -/
structure LooseRun (set : CommandSet) (code : List UInt8) where
  /-- The code before the condition. -/
  before : List UInt8
  /-- What stands in the condition before the run. -/
  marks : List Mark
  /-- How many negations there are. -/
  count : Nat
  /-- What stands after them. -/
  marker : Opcode
  rest : List UInt8
  code_eq : code = before ++ Opcode.conditionMarker ::
    (marksBytes marks ++ (nots count ++ marker :: rest))
  before_read : ∃ program, (decodeFrom set code.length (Cursor.start before)).result = .ok program
  marks_valid : ∀ m ∈ marks, m.Valid set
  marks_last : marks.getLast? ≠ some .negation
  marker_eq : marker = Opcode.orMarker ∨ marker = Opcode.conditionMarker

namespace LooseRun

variable {code : List UInt8} (run : LooseRun set code)

/-- The code up to the run. -/
def front : List UInt8 := run.before ++ Opcode.conditionMarker :: marksBytes run.marks

/-- The offset of the marker after the run. -/
def place : Nat := run.front.length + run.count

/-- Nothing is wrong with the code up to the run, but that it ends there. -/
def FrontSound : Prop :=
  (decodeFrom set code.length (Cursor.start run.front)).result =
    .error (.unexpectedEnd run.front.length)

/-- A fault in the marks is one of the code, and of what stands before the run. -/
theorem error_of_marks {why : ConditionFault} {place : Nat}
    (h : ∀ rest, readClauses set none false ⟨run.before.length + 1, marksBytes run.marks ++ rest⟩ =
      .error (.invalidCondition why place)) :
    (decode set code).result = .error (.invalidCondition why place) ∧ ¬run.FrontSound := by
  constructor
  · have hall := h (nots run.count ++ run.marker :: run.rest)
    have herror := decodeFrom_condition_error run.before_read hall
    rw [← run.code_eq] at herror
    rw [result_decode, herror]
  · intro hsound
    have hnil := h []
    rw [List.append_nil] at hnil
    cases (decodeFrom_condition_error run.before_read hnil).symm.trans hsound

/-- An odd run is a fault at the marker after it. -/
theorem error_of_odd (hodd : run.count % 2 = 1) {group : Option OpenGroup}
    {f : List Clause → List Clause}
    (h : ∀ rest, readClauses set none false ⟨run.before.length + 1, marksBytes run.marks ++ rest⟩ =
      (readClauses set group false
        ⟨run.before.length + 1 + (marksBytes run.marks).length, rest⟩).map fun r => (f r.1, r.2)) :
    ∃ why, (decode set code).result = .error (.invalidCondition why run.place) := by
  have hplace : run.before.length + 1 + (marksBytes run.marks).length + run.count = run.place := by
    rw [place, front, List.length_append, List.length_cons]
    omega
  obtain ⟨why, hwhy⟩ := exists_fault_of_pending set group run.place run.marker_eq run.rest
  refine ⟨why, ?_⟩
  have hclauses : readClauses set none false ⟨run.before.length + 1,
      marksBytes run.marks ++ (nots run.count ++ run.marker :: run.rest)⟩ =
        .error (.invalidCondition why run.place) := by
    rw [h, readClauses_nots, hplace, Bool.false_xor, decide_eq_true hodd, hwhy]
    rfl
  have herror := decodeFrom_condition_error run.before_read hclauses
  rw [← run.code_eq] at herror
  rw [result_decode, herror]

end LooseRun

/-- **An odd run of negations without a test is a fault.** Code that is accepted has only even ones.
If nothing is wrong with the code up to an odd run, the fault is found at the marker after it. -/
theorem decode_looseRun (set : CommandSet) (code : List UInt8) (run : LooseRun set code) :
    (∀ program, (decode set code).result = .ok program → run.count % 2 = 0) ∧
      (run.FrontSound → run.count % 2 = 1 →
        ∃ why, (decode set code).result = .error (.invalidCondition why run.place)) := by
  have hmarks := passes_marks run.marks_valid none false (run.before.length + 1)
  rw [pending_eq_false run.marks_last] at hmarks
  cases hmarks with
  | fault why place h =>
    obtain ⟨herror, hnot⟩ := run.error_of_marks h
    refine ⟨fun program hok => ?_, fun hsound => absurd hsound hnot⟩
    cases herror.symm.trans hok
  | through group f h =>
    refine ⟨fun program hok => ?_, fun _ hodd => run.error_of_odd hodd h⟩
    rcases Nat.mod_two_eq_zero_or_one run.count with heven | hodd
    · exact heven
    · obtain ⟨why, herror⟩ := run.error_of_odd hodd h
      cases herror.symm.trans hok

/-- A condition with three negations after its test. -/
def tripledBytes : List UInt8 := [12, 5, 0xFF, 7, 5, 0xFD, 0xFD, 0xFD, 0xFF, 0, 0]

/-- The three negations. -/
def tripledRun : LooseRun {} tripledBytes where
  before := [12, 5]
  marks := [.test 7 [5]]
  count := 3
  marker := Opcode.conditionMarker
  rest := [0, 0]
  code_eq := rfl
  before_read := ⟨[.command 0 ⟨12, [5]⟩], by decide +kernel⟩
  marks_valid := by
    intro m hm
    rw [List.mem_singleton.1 hm]
    exact ⟨by decide, _, .fixed rfl⟩
  marks_last := by decide
  marker_eq := .inr rfl

/-- A condition that is made of two negations. -/
def doubledBytes : List UInt8 := [0xFF, 0xFD, 0xFD, 0xFF, 0, 0]

/-- The two negations. -/
def doubledRun : LooseRun {} doubledBytes where
  before := []
  marks := []
  count := 2
  marker := Opcode.conditionMarker
  rest := [0, 0]
  code_eq := rfl
  before_read := ⟨[], by decide +kernel⟩
  marks_valid := by simp
  marks_last := by decide
  marker_eq := .inr rfl

theorem decode_looseRun_tripledBytes :
    (tripledRun.FrontSound ∧
      ∃ why, (decode {} tripledBytes).result = .error (.invalidCondition why 8)) ∧
    ∃ program, (decode {} doubledBytes).result = .ok program ∧ doubledRun.count % 2 = 0 := by
  have hfront : tripledRun.FrontSound := by
    show (decodeFrom {} 11 (Cursor.start [12, 5, 0xFF, 7, 5])).result = .error (.unexpectedEnd 5)
    decide +kernel
  have hok : (decode {} doubledBytes).result = .ok [.condition 0 [] (some 6)] := by decide +kernel
  exact ⟨⟨hfront, (decode_looseRun {} tripledBytes tripledRun).2 hfront rfl⟩,
    _, hok, (decode_looseRun {} doubledBytes doubledRun).1 _ hok⟩

/-- Two negations before the closing marker are no fault. -/
theorem decode_doubledBytes :
    ∃ run : LooseRun {} doubledBytes, 0 < run.count ∧
      run.FrontSound ∧ (decode {} doubledBytes).result = .ok [.condition 0 [] (some 6)] := by
  refine ⟨doubledRun, Nat.two_pos, ?_, by decide +kernel⟩
  show (decodeFrom {} 6 (Cursor.start [0xFF])).result = .error (.unexpectedEnd 1)
  decide +kernel

end Bytecode
end AdventureLogic
