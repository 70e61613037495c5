import AdventureLogic.Proofs.Bytecode.Accepted

/-!
# Reading on where the bytes end

A reader that runs out of bytes has found no fault in those that are there. If
more bytes follow, it does the same with the first ones and goes on
(`Bytecode.Continues`); and there are always bytes with which it is done
(`Bytecode.Reader.Completable`). Both hold of every reader (`Bytecode.Reader.Resumable`)
and are put together along its parts.

Only one thing depends on how long the code is: how far a jump may lead. So a
reader is given the size of the code, and more bytes may make it larger.

The reader of clauses takes the bytes one by one. Each ends the clauses, is the
opcode of a test, or changes what the reader has in mind (`Bytecode.ClauseStep`).

Key definitions: `Bytecode.Reader`, `Bytecode.Continues`,
`Bytecode.Reader.Resumable`, `Bytecode.Passes`, `Bytecode.ClauseStep`. Key
theorems: `Bytecode.Reader.Resumable.andThen`, `Bytecode.clauseStep`,
`Bytecode.continues_readInstruction`, `Bytecode.completable_readInstruction`.
-/

namespace AdventureLogic
namespace Bytecode

variable {α β : Type}

/-- The same place, with more bytes after the last one. -/
def Cursor.extend (c : Cursor) (more : List UInt8) : Cursor := ⟨c.offset, c.rest ++ more⟩

/-- Reads something at a place of a code that has the given size. -/
abbrev Reader (α : Type) := Nat → Cursor → Except Error (α × Cursor)

/-- Reads something, and then what depends on it. -/
def Reader.andThen (r : Reader α) (s : α → Reader β) : Reader β := fun size c => do
  let (a, c) ← r size c
  s a size c

/-- How a reader fares at a place of a code of `size` bytes, and how it fares with `more` bytes after
the last one, which stands before `stop`. -/
inductive Continues (size stop : Nat) (more : List UInt8) :
    Except Error (α × Cursor) → Except Error (α × Cursor) → Prop where
  /-- It is done before the bytes end. -/
  | done {a : α} {c : Cursor} (h : c.stop = stop) :
    Continues size stop more (.ok (a, c)) (.ok (a, c.extend more))
  /-- It finds a fault that more bytes do not mend. -/
  | fault {e : Error} (h : ∀ p, e ≠ .unexpectedEnd p) :
    Continues size stop more (.error e) (.error e)
  /-- It needs more bytes. -/
  | ended {long : Except Error (α × Cursor)} :
    Continues size stop more (.error (.unexpectedEnd stop)) long
  /-- A jump leads behind the end, which may be inside a longer code. -/
  | beyond {source : Nat} {target : Int} {long : Except Error (α × Cursor)} (h : size < target) :
    Continues size stop more (.error (.jumpOutsideCode source target)) long

namespace Continues

variable {size stop : Nat} {more : List UInt8} {short long : Except Error (α × Cursor)}

theorem bind (h : Continues size stop more short long)
    {f g : α × Cursor → Except Error (β × Cursor)}
    (hfg : ∀ a c, short = .ok (a, c) → c.stop = stop →
      Continues size stop more (f (a, c)) (g (a, c.extend more))) :
    Continues size stop more (short >>= f) (long >>= g) := by
  cases h with
  | done h => exact hfg _ _ rfl h
  | fault h => exact .fault h
  | ended => exact .ended
  | beyond h => exact .beyond h

theorem map (h : Continues size stop more short long) (f : α → β) :
    Continues size stop more (short.map fun r => (f r.1, r.2)) (long.map fun r => (f r.1, r.2)) := by
  cases h with
  | done h => exact .done h
  | fault h => exact .fault h
  | ended => exact .ended
  | beyond h => exact .beyond h

theorem offset_eq {p : Nat} (h : Continues size stop more (.error (.unexpectedEnd p)) long) :
    p = stop := by
  cases h with
  | fault h => exact absurd rfl (h p)
  | ended => rfl

theorem eq_ok {a : α} {c : Cursor} (h : Continues size stop more (.ok (a, c)) long) :
    c.stop = stop ∧ long = .ok (a, c.extend more) := by
  cases h with
  | done h => exact ⟨h, rfl⟩

end Continues

namespace Reader

/-- There are bytes with which the reader is done, whatever follows them, if the code has at least a
certain size. -/
def Completable (r : Reader α) (c : Cursor) : Prop :=
  ∃ more a offset need, ∀ size, need ≤ size → ∀ rest,
    r size (c.extend (more ++ rest)) = .ok (a, ⟨offset, rest⟩)

/-- The reader goes on where it has run out of bytes, and there are always bytes with which it is
done. -/
structure Resumable (r : Reader α) : Prop where
  continues : ∀ {size size' : Nat}, size ≤ size' → ∀ c more,
    Continues size c.stop more (r size c) (r size' (c.extend more))
  opens : ∀ offset, r.Completable ⟨offset, []⟩
  resumes : ∀ size {c p}, r size c = .error (.unexpectedEnd p) → r.Completable c

variable {r : Reader α} {s : α → Reader β}

theorem Completable.andThen {c : Cursor} (h : r.Completable c)
    (hs : ∀ a offset, (s a).Completable ⟨offset, []⟩) : (r.andThen s).Completable c := by
  obtain ⟨more, a, offset, need, hr⟩ := h
  obtain ⟨more', b, offset', need', hs⟩ := hs a offset
  refine ⟨more ++ more', b, offset', max need need', fun size hsize rest => ?_⟩
  rw [List.append_assoc]
  refine Result.bind_eq_ok.2 ⟨_, hr size (by omega) _, ?_⟩
  exact hs size (by omega) rest

/-- If the first reader is done, what is left to complete is the second. -/
theorem Completable.after (hr : r.Resumable) (size : Nat) {c d : Cursor} {a : α}
    (h : r size c = .ok (a, d)) (hs : (s a).Completable d) : (r.andThen s).Completable c := by
  obtain ⟨more, b, offset, need, hs⟩ := hs
  refine ⟨more, b, offset, max size need, fun size' hsize rest => ?_⟩
  have hlong := hr.continues (show size ≤ size' by omega) c (more ++ rest)
  rw [h] at hlong
  exact Result.bind_eq_ok.2 ⟨_, hlong.eq_ok.2, hs size' (by omega) rest⟩

theorem Completable.map {c : Cursor} (h : r.Completable c) (f : α → β) :
    Completable (fun size c => (r size c).map fun x => (f x.1, x.2)) c := by
  obtain ⟨more, a, offset, need, hr⟩ := h
  refine ⟨more, f a, offset, need, fun size hsize rest => ?_⟩
  exact Result.map_eq_ok.2 ⟨_, hr size hsize rest, rfl⟩

/-- A byte has been read, and what is left to complete is what follows. -/
theorem Completable.cons {r r' : Reader α} {offset : Nat} {b : UInt8} {rest : List UInt8}
    (h : ∀ size rest, r size ⟨offset, b :: rest⟩ = r' size ⟨offset + 1, rest⟩)
    (hr : r'.Completable ⟨offset + 1, rest⟩) : r.Completable ⟨offset, b :: rest⟩ := by
  obtain ⟨more, a, offset', need, hr⟩ := hr
  exact ⟨more, a, offset', need, fun size hsize rest' => (h size _).trans (hr size hsize rest')⟩

theorem Resumable.andThen (hr : r.Resumable) (hs : ∀ a, (s a).Resumable) :
    (r.andThen s).Resumable where
  continues hsize c more :=
    (hr.continues hsize c more).bind fun a d _ hd => hd ▸ (hs a).continues hsize d more
  opens offset := (hr.opens offset).andThen fun a => (hs a).opens
  resumes size c p h := by
    rcases Result.bind_eq_error.1 h with h | ⟨⟨a, d⟩, hd, h⟩
    · exact (hr.resumes size h).andThen fun a => (hs a).opens
    · exact .after hr size hd ((hs a).resumes size h)

theorem resumable_pure (a : α) : Resumable fun _ c => .ok (a, c) where
  continues _ _ _ := .done rfl
  opens offset := ⟨[], a, offset, 0, fun _ _ _ => rfl⟩
  resumes _ _ _ h := by cases h

theorem resumable_byte : Resumable fun _ => Cursor.byte where
  continues := by
    rintro size size' - ⟨offset, _ | ⟨b, rest⟩⟩ more
    · exact .ended
    · exact .done (by simp only [Cursor.stop, List.length_cons]; omega)
  opens offset := ⟨[0], 0, offset + 1, 0, fun _ _ _ => rfl⟩
  resumes := by
    rintro size ⟨offset, _ | ⟨b, rest⟩⟩ p h
    · exact ⟨[0], 0, offset + 1, 0, fun _ _ _ => rfl⟩
    · cases h

theorem resumable_word : Resumable fun _ => Cursor.word :=
  resumable_byte.andThen fun low => resumable_byte.andThen fun high =>
    resumable_pure (Word.ofBytes low high)

theorem resumable_bytes : ∀ n, Resumable fun _ => Cursor.bytes n
  | 0 => resumable_pure []
  | n + 1 => resumable_byte.andThen fun b => (resumable_bytes n).andThen fun bs =>
    resumable_pure (b :: bs)

theorem resumable_words : ∀ n, Resumable fun _ => Cursor.words n
  | 0 => resumable_pure []
  | n + 1 => resumable_word.andThen fun w => (resumable_words n).andThen fun ws =>
    resumable_pure (w :: ws)

/-- A word whose high byte is 0 leads forward, and not out of a code that is long enough. -/
theorem jump_forward {size source offset : Nat} {low : UInt8} (h : offset + 2 + low.toNat ≤ size)
    (rest : List UInt8) : Cursor.jump size source ⟨offset, low :: 0 :: rest⟩ =
      .ok (UInt32.ofNat (offset + 2 + low.toNat), ⟨offset + 2, rest⟩) := by
  have hlow := low.toNat_lt
  have hword : (Word.ofBytes low 0).toNat = low.toNat := by
    rw [Word.ofBytes, UInt16.toNat_ofNat']
    exact Nat.mod_eq_of_lt (by simp only [UInt8.toNat_zero]; omega)
  have htarget : ((offset + 2 : Nat) : Int) + Word.signed (Word.ofBytes low 0) =
      (offset + 2 + low.toNat : Nat) := by
    rw [Word.signed, hword, if_pos (by omega)]
    rfl
  refine Result.bind_eq_ok.2 ⟨(Word.ofBytes low 0, ⟨offset + 2, rest⟩), rfl, ?_⟩
  dsimp only
  rw [htarget, if_pos ⟨by omega, by omega⟩]
  rfl

/-- A jump is completed by a word that leads forward, in a code that is long enough for it. -/
theorem resumable_jump (source : Nat) : Resumable fun size => Cursor.jump size source where
  continues := by
    intro size size' hsize c more
    refine (resumable_word.continues hsize c more).bind fun w d _ hd => ?_
    show Continues size c.stop more
      (if 0 ≤ (d.offset : Int) + Word.signed w ∧ (d.offset : Int) + Word.signed w ≤ size
        then .ok (_, d) else .error (.jumpOutsideCode source _))
      (if 0 ≤ (d.offset : Int) + Word.signed w ∧ (d.offset : Int) + Word.signed w ≤ size'
        then .ok (_, d.extend more) else .error (.jumpOutsideCode source _))
    by_cases hshort : 0 ≤ (d.offset : Int) + Word.signed w ∧ (d.offset : Int) + Word.signed w ≤ size
    · rw [if_pos hshort, if_pos ⟨hshort.1, by omega⟩]
      exact .done hd
    · rw [if_neg hshort]
      by_cases hpos : 0 ≤ (d.offset : Int) + Word.signed w
      · exact .beyond (by omega)
      · rw [if_neg fun h => hpos h.1]
        exact .fault fun _ h => by cases h
  opens offset := ⟨[0, 0], _, _, offset + 2, fun _ hsize rest => jump_forward hsize rest⟩
  resumes := by
    rintro size ⟨offset, _ | ⟨low, _ | ⟨high, rest⟩⟩⟩ p h
    · exact ⟨[0, 0], _, _, offset + 2, fun _ hsize rest => jump_forward hsize rest⟩
    · exact ⟨[0], _, _, offset + 2 + low.toNat, fun _ hsize rest => jump_forward hsize rest⟩
    · -- the word is there, so the jump is not short of bytes
      obtain h | ⟨⟨w, d⟩, -, h⟩ := Result.bind_eq_error.1 h
      · cases h
      · dsimp only at h
        split at h <;> cases h

/-- **The arguments of a known test can be completed.** -/
theorem resumable_test {set : CommandSet} {op : Opcode} {arity : TestArity}
    (h : set.testArity? op = some arity) (offset : Nat) :
    Resumable fun _ => readTest set op offset := by
  cases arity with
  | fixed count =>
    have hread : (fun _ => readTest set op offset) = Reader.andThen (fun _ => Cursor.bytes count)
        fun bs _ c => .ok (⟨op, bs.map UInt8.toUInt16, false⟩, c) := by
      funext size c
      rw [readTest, h]
      rfl
    rw [hread]
    exact (resumable_bytes count).andThen fun _ => resumable_pure _
  | counted =>
    have hread : (fun _ => readTest set op offset) = Reader.andThen (fun _ => Cursor.byte)
        fun count => Reader.andThen (fun _ => Cursor.words count.toNat)
          fun ws _ c => .ok (⟨op, ws, false⟩, c) := by
      funext size c
      rw [readTest, h]
      rfl
    rw [hread]
    exact resumable_byte.andThen fun count =>
      (resumable_words count.toNat).andThen fun _ => resumable_pure _

end Reader

theorem map_id (x : Except Error (α × Cursor)) : (x.map fun r => (r.1, r.2)) = x := by
  cases x <;> rfl

variable {set : CommandSet}

/-! ## Clauses -/

theorem readClauses_nil (group : Option OpenGroup) (negated : Bool) (offset : Nat) :
    readClauses set group negated ⟨offset, []⟩ = .error (.unexpectedEnd offset) := by
  rw [readClauses]
  rfl

/-- The reader of clauses finds a fault in some bytes or gets over them, whatever follows. After them
`negated'` says whether a negation is pending. -/
inductive Passes (set : CommandSet) (group : Option OpenGroup) (negated : Bool) (offset : Nat)
    (bytes : List UInt8) (negated' : Bool) : Prop where
  | fault (why : ConditionFault) (place : Nat) (h : ∀ rest,
      readClauses set group negated ⟨offset, bytes ++ rest⟩ = .error (.invalidCondition why place))
  | through (group' : Option OpenGroup) (f : List Clause → List Clause) (h : ∀ rest,
      readClauses set group negated ⟨offset, bytes ++ rest⟩ =
        (readClauses set group' negated' ⟨offset + bytes.length, rest⟩).map fun r => (f r.1, r.2))

/-- The marker of groups opens or closes one, or it is a fault. -/
theorem passes_orMarker (group : Option OpenGroup) (negated : Bool) (offset : Nat) :
    Passes set group negated offset [Opcode.orMarker] false := by
  cases negated with
  | true => exact .fault .negatedGroup offset fun rest => by rw [readClauses]; rfl
  | false =>
    cases group with
    | none =>
      refine .through (some ⟨offset, []⟩) id fun rest => (readClauses_open offset rest).trans ?_
      exact (map_id _).symm
    | some g =>
      by_cases hg : g.tests = []
      · refine .fault .emptyGroup g.opened fun rest => ?_
        rw [readClauses]
        show (if g.tests.isEmpty then _ else _) = _
        rw [if_pos (List.isEmpty_iff.2 hg)]
      · exact .through none _ (readClauses_close hg offset)

/-- A negation turns round whether one is pending. -/
theorem passes_notMarker (group : Option OpenGroup) (negated : Bool) (offset : Nat) :
    Passes set group negated offset [Opcode.notMarker] (!negated) := by
  refine .through group id fun rest => (readClauses_not group negated offset rest).trans ?_
  exact (map_id _).symm

/-- What the reader of clauses does with the next byte, whatever follows it. -/
inductive ClauseStep (set : CommandSet) (group : Option OpenGroup) (negated : Bool) (offset : Nat)
    (b : UInt8) : Prop where
  /-- It is done. -/
  | close (h : ∀ rest,
      readClauses set group negated ⟨offset, b :: rest⟩ = .ok ([], ⟨offset + 1, rest⟩))
  /-- It goes on, unless the byte is a fault. -/
  | pass (negated' : Bool) (h : Passes set group negated offset [b] negated')
  /-- It reads the arguments of a test and goes on. -/
  | test (group' : Test → Option OpenGroup) (f : Test → List Clause → List Clause) (h : ∀ rest,
      readClauses set group negated ⟨offset, b :: rest⟩ =
        readTest set b offset ⟨offset + 1, rest⟩ >>= fun t =>
          (readClauses set (group' t.1) false t.2).map fun r => (f t.1 r.1, r.2))

/-- The marker that closes a condition ends the clauses, or it is a fault. -/
theorem clauseStep_conditionMarker (group : Option OpenGroup) (negated : Bool) (offset : Nat) :
    ClauseStep set group negated offset Opcode.conditionMarker := by
  cases group with
  | some g => exact .pass false (.fault .unterminatedGroup offset fun _ => by rw [readClauses]; rfl)
  | none =>
    cases negated with
    | true => exact .pass false (.fault .danglingNegation offset fun _ => by rw [readClauses]; rfl)
    | false => exact .close (readClauses_end offset)

/-- A byte that is no marker is the opcode of a test. -/
theorem clauseStep_opcode (group : Option OpenGroup) (negated : Bool) (offset : Nat) {b : UInt8}
    (hb : b ∉ Opcode.clauseMarkers) : ClauseStep set group negated offset b := by
  have hne : ∀ m ∈ Opcode.clauseMarkers, b ≠ m := fun m hm he => hb (he ▸ hm)
  have hopcode : ∀ rest, readClauses set group negated ⟨offset, b :: rest⟩ =
      readTest set b offset ⟨offset + 1, rest⟩ >>= fun t =>
        group.elim
          ((readClauses set none false t.2).map fun r => (.test (t.1.negate negated) :: r.1, r.2))
          fun g => readClauses set (some (g.add (t.1.negate negated))) false t.2 := by
    intro rest
    rw [readClauses]
    show (if b = Opcode.conditionMarker then _ else if b = Opcode.orMarker then _
      else if b = Opcode.notMarker then _ else _) = _
    rw [if_neg (hne _ (by decide)), if_neg (hne _ (by decide)), if_neg (hne _ (by decide))]
    split
    · rename_i e hread
      rw [hread]
      rfl
    · rename_i t after hread
      rw [hread]
      cases group <;> rfl
  cases group with
  | none => exact .test (fun _ => none) (fun t clauses => .test (t.negate negated) :: clauses) hopcode
  | some g =>
    refine .test (fun t => some (g.add (t.negate negated))) (fun _ => id) fun rest => ?_
    rw [hopcode rest]
    simp only [Option.elim_some, id, map_id]

/-- Whatever the next byte is, the reader takes one of these steps. -/
theorem clauseStep (set : CommandSet) (group : Option OpenGroup) (negated : Bool) (offset : Nat)
    (b : UInt8) : ClauseStep set group negated offset b := by
  by_cases hcondition : b = Opcode.conditionMarker
  · exact hcondition ▸ clauseStep_conditionMarker group negated offset
  by_cases hor : b = Opcode.orMarker
  · exact hor ▸ .pass false (passes_orMarker group negated offset)
  by_cases hnot : b = Opcode.notMarker
  · exact hnot ▸ .pass _ (passes_notMarker group negated offset)
  · exact clauseStep_opcode group negated offset (not_mem_clauseMarkers hcondition hor hnot)

theorem stop_cons (offset : Nat) (b : UInt8) (rest : List UInt8) :
    Cursor.stop ⟨offset + 1, rest⟩ = Cursor.stop ⟨offset, b :: rest⟩ := by
  rw [Cursor.stop, Cursor.stop, List.length_cons, Nat.add_assoc, Nat.add_comm 1]

/-- Whether its arity is known or not, a test is read on. -/
theorem continues_readTest {size size' : Nat} (hsize : size ≤ size') (op : Opcode) (offset : Nat)
    (c : Cursor) (more : List UInt8) :
    Continues size c.stop more (readTest set op offset c) (readTest set op offset (c.extend more)) := by
  cases harity : set.testArity? op with
  | none =>
    rw [readTest, harity, readTest, harity]
    exact .fault fun _ h => by cases h
  | some arity => exact (Reader.resumable_test harity offset).continues hsize c more

/-- **Clauses are read on** where their bytes have ended. By induction on the bytes that are left,
with what the reader has in mind generalised. -/
theorem continues_readClauses {size size' : Nat} (hsize : size ≤ size') (more : List UInt8) :
    ∀ (group : Option OpenGroup) (negated : Bool) (c : Cursor),
      Continues size c.stop more (readClauses set group negated c)
        (readClauses set group negated (c.extend more))
  | group, negated, ⟨offset, []⟩ => by
    rw [readClauses_nil]
    exact .ended
  | group, negated, ⟨offset, b :: rest⟩ => by
    have hlong : Cursor.extend ⟨offset, b :: rest⟩ more = ⟨offset, b :: (rest ++ more)⟩ := rfl
    rw [hlong, ← stop_cons offset b rest]
    cases clauseStep set group negated offset b with
    | close h =>
      rw [h, h]
      exact .done rfl
    | pass negated' h =>
      cases h with
      | fault why place h =>
        refine (h rest).symm ▸ (h (rest ++ more)).symm ▸ ?_
        exact .fault fun _ h => by cases h
      | through group' f h =>
        refine (h rest).symm ▸ (h (rest ++ more)).symm ▸ ?_
        exact (continues_readClauses hsize more group' negated' ⟨offset + 1, rest⟩).map f
    | test group' f h =>
      rw [h, h]
      refine (continues_readTest hsize b offset ⟨offset + 1, rest⟩ more).bind
        fun t after hread hstop => ?_
      have hlen := length_readTest set hread
      rw [← hstop]
      exact (continues_readClauses hsize more (group' t) false after).map (f t)
termination_by _ _ c => c.rest.length
decreasing_by
  · exact Nat.lt_succ_self _
  · exact Nat.lt_succ_of_le hlen

/-- The opcode 0 is known in every command set, as a test without arguments or as a counted one. -/
theorem exists_spellsArgs_zero (set : CommandSet) : ∃ bytes, SpellsArgs set 0 [] bytes := by
  by_cases hvariable : set.isVariableTest 0 = true
  · have harity : set.testArity? 0 = some .counted := if_pos hvariable
    exact ⟨_, @SpellsArgs.counted set 0 0 [] harity rfl⟩
  · have harity : set.testArity? 0 = some (.fixed 0) := if_neg hvariable
    exact ⟨_, @SpellsArgs.fixed set 0 [] harity⟩

/-- Clauses are completed by a test, which takes a pending negation and fills a group, and the
markers that close the group and the condition. -/
theorem completable_clauses (group : Option OpenGroup) (negated : Bool) (offset : Nat) :
    Reader.Completable (fun _ => readClauses set group negated) ⟨offset, []⟩ := by
  obtain ⟨bytes, hargs⟩ := exists_spellsArgs_zero set
  have htest := readClauses_opcode (t := ⟨0, [], false⟩) (by decide) (reads_args hargs) group negated
    offset
  cases group with
  | none =>
    refine ⟨0 :: (bytes ++ [Opcode.conditionMarker]), [.test ⟨0, [], negated⟩],
      offset + (bytes.length + 1) + 1, 0, fun _ _ rest => ?_⟩
    rw [List.cons_append, List.append_assoc]
    refine (htest _).trans ?_
    dsimp only
    rw [List.singleton_append, readClauses_end]
    rfl
  | some g =>
    refine ⟨0 :: (bytes ++ [Opcode.orMarker, Opcode.conditionMarker]),
      [.anyOf (g.add ⟨0, [], negated⟩).tests.reverse], offset + (bytes.length + 1) + 1 + 1, 0,
      fun _ _ rest => ?_⟩
    rw [List.cons_append, List.append_assoc]
    refine (htest _).trans ?_
    dsimp only
    rw [List.cons_append, readClauses_close (List.cons_ne_nil _ _), List.singleton_append,
      readClauses_end]
    rfl

/-- **Clauses that end too early can be completed.** -/
theorem completable_readClauses {p : Nat} :
    ∀ (group : Option OpenGroup) (negated : Bool) (c : Cursor),
      readClauses set group negated c = .error (.unexpectedEnd p) →
        Reader.Completable (fun _ => readClauses set group negated) c
  | group, negated, ⟨offset, []⟩, _ => completable_clauses group negated offset
  | group, negated, ⟨offset, b :: rest⟩, hend => by
    cases clauseStep set group negated offset b with
    | close h =>
      rw [h] at hend
      cases hend
    | pass negated' h =>
      cases h with
      | fault why place h => cases (h rest).symm.trans hend
      | through group' f h =>
        have hnext := Result.map_eq_error.1 ((h rest).symm.trans hend)
        have ih := completable_readClauses group' negated' ⟨offset + 1, rest⟩ hnext
        refine .cons ?_ (ih.map f)
        exact fun _ => h
    | test group' f h =>
      rw [h] at hend
      have hthen : ∀ size rest, readClauses set group negated ⟨offset, b :: rest⟩ =
          Reader.andThen (fun _ => readTest set b offset) (fun t _ after =>
            (readClauses set (group' t) false after).map fun r => (f t r.1, r.2))
            size ⟨offset + 1, rest⟩ := fun _ => h
      refine .cons hthen ?_
      cases harity : set.testArity? b with
      | none =>
        rw [readTest, harity] at hend
        cases hend
      | some arity =>
        have hresume := Reader.resumable_test harity offset
        rcases Result.bind_eq_error.1 hend with hend | ⟨⟨t, after⟩, hread, hend⟩
        · exact (hresume.resumes 0 hend).andThen fun t offset' =>
            (completable_clauses (group' t) false offset').map (f t)
        · have hlen := length_readTest set hread
          have ih := completable_readClauses (group' t) false after (Result.map_eq_error.1 hend)
          exact .after hresume 0 hread (ih.map (f t))
termination_by _ _ c => c.rest.length
decreasing_by
  · exact Nat.lt_succ_self _
  · exact Nat.lt_succ_of_le hlen

theorem resumable_readClauses : Reader.Resumable fun _ => readClauses set none false where
  continues hsize c more := continues_readClauses hsize more none false c
  opens offset := completable_clauses none false offset
  resumes _ _ _ h := completable_readClauses none false _ h

/-! ## Instructions -/

/-- Reads the rest of an instruction that starts with a byte at an offset. -/
def readRest (set : CommandSet) (offset : Nat) (b : UInt8) : Reader Instruction :=
  if b = Opcode.conditionMarker then
    Reader.andThen (fun _ => readClauses set none false) fun clauses =>
      Reader.andThen (fun size => Cursor.jump size offset) fun skip _ c =>
        .ok (.condition (UInt32.ofNat offset) clauses (some skip), c)
  else if b = Opcode.gotoMarker then
    Reader.andThen (fun size => Cursor.jump size offset) fun target _ c =>
      .ok (.goto (UInt32.ofNat offset) target, c)
  else
    match Opcode.actionArity? b with
    | none => fun _ _ => .error (.unknownOpcode b offset)
    | some arity => Reader.andThen (fun _ => Cursor.bytes arity) fun args _ c =>
        .ok (.command (UInt32.ofNat offset) ⟨b, args⟩, c)

theorem readInstruction_cons (size offset : Nat) (b : UInt8) (rest : List UInt8) :
    readInstruction set size ⟨offset, b :: rest⟩ =
      readRest set offset b size ⟨offset + 1, rest⟩ := by
  show (if b = Opcode.conditionMarker then _ else if b = Opcode.gotoMarker then _ else _) = _
  unfold readRest
  by_cases hcondition : b = Opcode.conditionMarker
  · rw [if_pos hcondition, if_pos hcondition]
    rfl
  · rw [if_neg hcondition, if_neg hcondition]
    by_cases hgoto : b = Opcode.gotoMarker
    · rw [if_pos hgoto, if_pos hgoto]
      rfl
    · rw [if_neg hgoto, if_neg hgoto]
      cases Opcode.actionArity? b <;> rfl

/-- What follows the first byte of an instruction can be completed, unless the byte is no opcode. -/
theorem resumable_readRest (set : CommandSet) (offset : Nat) (b : UInt8) :
    (readRest set offset b).Resumable ∨
      readRest set offset b = fun _ _ => .error (.unknownOpcode b offset) := by
  unfold readRest
  by_cases hcondition : b = Opcode.conditionMarker
  · rw [if_pos hcondition]
    exact .inl (resumable_readClauses.andThen fun _ => (Reader.resumable_jump offset).andThen fun _ =>
      Reader.resumable_pure _)
  · rw [if_neg hcondition]
    by_cases hgoto : b = Opcode.gotoMarker
    · rw [if_pos hgoto]
      exact .inl ((Reader.resumable_jump offset).andThen fun _ => Reader.resumable_pure _)
    · rw [if_neg hgoto]
      cases Opcode.actionArity? b with
      | none => exact .inr rfl
      | some arity =>
        exact .inl ((Reader.resumable_bytes arity).andThen fun _ => Reader.resumable_pure _)

/-- **An instruction is read on** where its bytes have ended. -/
theorem continues_readInstruction (set : CommandSet) {size size' : Nat} (hsize : size ≤ size') (more : List UInt8) :
    ∀ c : Cursor, Continues size c.stop more (readInstruction set size c)
      (readInstruction set size' (c.extend more))
  | ⟨offset, []⟩ => .ended
  | ⟨offset, b :: rest⟩ => by
    have hlong : Cursor.extend ⟨offset, b :: rest⟩ more = ⟨offset, b :: (rest ++ more)⟩ := rfl
    rw [hlong, ← stop_cons offset b rest, readInstruction_cons, readInstruction_cons]
    rcases resumable_readRest set offset b with h | h
    · exact h.continues hsize ⟨offset + 1, rest⟩ more
    · rw [h]
      exact .fault fun _ h => by cases h

/-- **An instruction that ends too early can be completed.** -/
theorem completable_readInstruction {size p : Nat} :
    ∀ {c : Cursor}, c.rest ≠ [] → readInstruction set size c = .error (.unexpectedEnd p) →
      Reader.Completable (readInstruction set) c
  | ⟨offset, []⟩, hne, _ => absurd rfl hne
  | ⟨offset, b :: rest⟩, _, hend => by
    rw [readInstruction_cons] at hend
    rcases resumable_readRest set offset b with h | h
    · exact .cons (fun size rest => readInstruction_cons size offset b rest) (h.resumes size hend)
    · rw [h] at hend
      cases hend

/-! ## Code -/

theorem result_decodeFrom_nil (size offset : Nat) :
    (decodeFrom set size ⟨offset, []⟩).result = .ok [] := by
  rw [decodeFrom]
  rfl

/-- Code is read one instruction after the other. -/
theorem result_decodeFrom {size : Nat} {c : Cursor} (h : c.rest ≠ []) :
    (decodeFrom set size c).result = readInstruction set size c >>= fun r =>
      (decodeFrom set size r.2).result.map (r.1 :: ·) := by
  rw [decodeFrom, if_neg (by simpa using h)]
  split
  · rename_i e hread
    rw [hread]
    rfl
  · rename_i i next hread
    rw [hread, Logged.result_bind]
    rfl

theorem extend_ne_nil {c : Cursor} (h : c.rest ≠ []) (more : List UInt8) :
    (c.extend more).rest ≠ [] := by
  simp [Cursor.extend, h]

theorem result_decode (set : CommandSet) (code : List UInt8) :
    (decode set code).result = (decodeFrom set code.length (Cursor.start code)).result := by
  rw [decode, Logged.result_bind]
  cases (decodeFrom set code.length (Cursor.start code)).result <;> rfl

end Bytecode
end AdventureLogic
