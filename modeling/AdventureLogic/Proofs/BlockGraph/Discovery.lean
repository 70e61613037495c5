import AdventureLogic.Proofs.BlockGraph.OpenBranches
import AdventureLogic.Proofs.Behaviour.Code

/-!
# Discovered blocks run like the code

The runs that are found start at distinct positions, and control that leaves
one of them comes to the start of another. So a run of the code and a run of
the graph go together: when control stands somewhere in the code, the commands
left in the block are those that a scan from there would find.

Key definitions: `Code.Discovered`, `BlockGraph.Follows`. Key theorems:
`Code.discovered_discoverFrom`, `BlockGraph.equivalent_ofInstructions`.
-/

namespace AdventureLogic

open Program (addresses)

namespace Code

theorem resolve_eq_ok {code : List Instruction} {a t : Address} {p : Nat}
    (h : resolve (positionsOf code) a t = .ok p) :
    p < code.length ∧ code[p]?.map Instruction.address = some t := by
  unfold resolve at h
  split at h
  · rename_i q hq
    cases h
    have hp := ((get?_positionsOf_eq_some_iff code t p).1 hq).1
    obtain ⟨i, hi, _⟩ := Option.map_eq_some_iff.1 hp
    exact ⟨(List.getElem?_eq_some_iff.1 hi).1, hp⟩
  · cases h

/-- The runs found from some positions on: each is what a scan from its start gives, no two start
at one position, and where control goes from them has been found too. -/
structure Discovered (code : Code) (unseen : Std.TreeSet Nat) (work : List Nat)
    (spans : List Span) : Prop where
  scanned : ∀ span ∈ spans, code.scan span.start = .ok span
  nodup : (spans.map Span.start).Nodup
  fresh : ∀ q ∈ spans.map Span.start, q ∈ unseen
  started : ∀ q ∈ work, q ∈ unseen → q ∈ spans.map Span.start
  targets : ∀ span ∈ spans, ∀ q ∈ span.ending.targets, q ∈ unseen → q ∈ spans.map Span.start

theorem start_scan {code : Code} {start : Nat} {span : Span} (h : code.scan start = .ok span) :
    span.start = start := by
  obtain ⟨r, _, rfl⟩ := Result.map_eq_ok.1 h
  rfl

theorem scan_eq_ok {code : Code} {start : Nat} {span : Span} (h : code.scan start = .ok span) :
    code.scanFrom true start (code.instructions.drop start) = .ok (span.commands, span.ending) := by
  obtain ⟨r, hr, rfl⟩ := Result.map_eq_ok.1 h
  rw [← getD_tails, hr]

theorem discovered_discoverFrom {code : Code} {unseen : Std.TreeSet Nat} {work : List Nat}
    {spans : List Span} (h : code.discoverFrom unseen work = .ok spans) :
    Discovered code unseen work spans := by
  fun_induction discoverFrom code unseen work generalizing spans with
  | case1 =>
    cases h
    exact ⟨fun _ hs => (nomatch hs), .nil, fun _ hq => (nomatch hq), fun _ hq => (nomatch hq),
      fun _ hs => (nomatch hs)⟩
  | case2 => cases h
  | case3 unseen start work hstart span hscan ih =>
    obtain ⟨rest, hrest, rfl⟩ := Result.map_eq_ok.1 h
    have ih := ih hrest
    have hspan := start_scan hscan
    have hfound : ∀ q ∈ unseen, (q ∈ unseen.erase start → q ∈ rest.map Span.start) →
        q ∈ (span :: rest).map Span.start := by
      intro q hq himp
      by_cases he : start = q
      · exact List.mem_cons.2 (.inl (hspan ▸ he.symm))
      · refine List.mem_cons_of_mem _ (himp (Std.TreeSet.mem_erase.2 ⟨fun hc => he ?_, hq⟩))
        exact Std.LawfulEqCmp.eq_of_compare hc
    refine ⟨?_, ?_, ?_, ?_, ?_⟩
    · exact List.forall_mem_cons.2 ⟨hspan ▸ hscan, ih.scanned⟩
    · refine List.nodup_cons.2 ⟨fun hm => ?_, ih.nodup⟩
      have := Std.TreeSet.mem_erase.1 (ih.fresh _ hm)
      exact this.1 (hspan ▸ Std.ReflCmp.compare_self)
    · refine List.forall_mem_cons.2 ⟨hspan ▸ hstart, fun q hq => ?_⟩
      exact Std.TreeSet.mem_of_mem_erase (ih.fresh q hq)
    · refine List.forall_mem_cons.2 ⟨fun _ => List.mem_cons.2 (.inl hspan.symm), fun q hq hu => ?_⟩
      exact hfound q hu fun he => ih.started q (List.mem_append_right _ hq) he
    · refine List.forall_mem_cons.2 ⟨fun q hq hu => ?_, fun s hs q hq hu => ?_⟩
      · exact hfound q hu fun he => ih.started q (List.mem_append_left _ hq) he
      · exact hfound q hu fun he => ih.targets s hs q hq he
  | case4 unseen start work hstart ih =>
    have ih := ih h
    refine ⟨ih.scanned, ih.nodup, ih.fresh, ?_, ih.targets⟩
    exact List.forall_mem_cons.2 ⟨fun hu => absurd hu hstart, ih.started⟩

/-- Code whose addresses are distinct, with their positions. -/
structure Proper (code : Code) : Prop where
  positions : code.positions = positionsOf code.instructions
  nodup : (addresses code.instructions).Nodup

theorem Proper.resolve_eq_ok {code : Code} (hcode : code.Proper) {a t : Address} {p : Nat}
    (h : resolve code.positions a t = .ok p) :
    p < code.instructions.length ∧ codeFrom code.instructions t = code.instructions.drop p := by
  rw [hcode.positions] at h
  obtain ⟨hlt, hp⟩ := Code.resolve_eq_ok h
  exact ⟨hlt, codeFrom_eq_drop hcode.nodup hp⟩

/-- A scan ends where there is code. -/
theorem targets_scanFrom {code : Code} (hcode : code.Proper) {first : Bool} {position : Nat}
    {left : List Instruction} {r : List Command × SpanEnd}
    (hlen : left.length = code.instructions.length - position)
    (h : code.scanFrom first position left = .ok r) :
    ∀ q ∈ r.2.targets, q < code.instructions.length := by
  fun_induction scanFrom code first position left generalizing r with
  | case1 | case3 =>
    cases h
    exact fun q hq => nomatch hq
  | case2 first position i rest _ =>
    cases h
    intro q hq
    rw [List.mem_singleton.1 hq]
    rw [List.length_cons] at hlen
    omega
  | case4 first position rest _ a c _ ih =>
    obtain ⟨r', hr', rfl⟩ := Result.map_eq_ok.1 h
    rw [List.length_cons] at hlen
    have htargets := ih (by omega) hr'
    exact htargets
  | case5 | case6 => cases h
  | case7 first position rest _ a clauses hrest t =>
    obtain ⟨p, hp, rfl⟩ := Result.map_eq_ok.1 h
    have hpos : 0 < rest.length := List.length_pos_iff.2 (by simpa using hrest)
    rw [List.length_cons] at hlen
    refine List.forall_mem_cons.2 ⟨by omega, fun q hq => ?_⟩
    rw [List.mem_singleton.1 hq]
    exact (hcode.resolve_eq_ok hp).1
  | case8 first position rest _ a t =>
    obtain ⟨p, hp, rfl⟩ := Result.map_eq_ok.1 h
    intro q hq
    rw [List.mem_singleton.1 hq]
    exact (hcode.resolve_eq_ok hp).1

theorem head_discover {code : Code} {spans : List Span} (hne : code.instructions ≠ [])
    (h : code.discover = .ok spans) : ∃ span rest, spans = span :: rest ∧ span.start = 0 := by
  rw [discover, discoverFrom] at h
  rw [if_pos] at h
  · split at h
    · cases h
    · rename_i span hscan
      obtain ⟨rest, _, rfl⟩ := Result.map_eq_ok.1 h
      exact ⟨span, rest, rfl, start_scan hscan⟩
  · rw [Std.TreeSet.mem_ofList, List.contains_iff_mem, List.mem_range]
    exact List.length_pos_iff.2 hne

end Code

namespace BlockGraph

theorem getElem?_numbersOf {spans : List Span} (hn : (spans.map Span.start).Nodup) {m : BlockId}
    {span : Span} (hm : spans[m]? = some span) : (numbersOf spans)[span.start]? = some m := by
  refine Std.TreeMap.getElem?_ofList_of_mem Std.ReflCmp.compare_self ?_ ?_
  · have hkeys : (spans.zipIdx.map fun s => (s.1.start, s.2)).map Prod.fst =
        spans.map Span.start := by
      rw [List.map_map, ← List.zipIdx_map_fst 0 spans, List.map_map, List.zipIdx_map_fst]
      rfl
    rw [← hkeys] at hn
    refine (List.pairwise_map.1 hn).imp fun hne hc => hne ?_
    exact Std.LawfulEqCmp.eq_of_compare hc
  · exact List.mem_map.2 ⟨(span, m), List.mem_zipIdx_iff_getElem?.2 hm, rfl⟩

theorem exists_number {spans : List Span} (hn : (spans.map Span.start).Nodup) {q : Nat}
    (hq : q ∈ spans.map Span.start) :
    ∃ m span, (numbersOf spans)[q]? = some m ∧ spans[m]? = some span ∧ span.start = q := by
  obtain ⟨span, hspan, rfl⟩ := List.mem_map.1 hq
  obtain ⟨m, hm⟩ := List.mem_iff_getElem?.1 hspan
  exact ⟨m, span, getElem?_numbersOf hn hm, hm, rfl⟩

/-- All that the graph of some runs rests on. -/
structure Charted (code : Code) (spans : List Span) : Prop where
  proper : code.Proper
  scanned : ∀ span ∈ spans, code.scanFrom true span.start
    (code.instructions.drop span.start) = .ok (span.commands, span.ending)
  /-- Control that leaves a run comes to the start of one. -/
  targets : ∀ span ∈ spans, ∀ q ∈ span.ending.targets,
    ∃ m target, (numbersOf spans)[q]? = some m ∧ spans[m]? = some target ∧ target.start = q
  root : ∃ span, spans[0]? = some span ∧ span.start = 0

theorem charted_discover {code : Code} {spans : List Span} (hcode : code.Proper)
    (hne : code.instructions ≠ []) (h : code.discover = .ok spans) : Charted code spans := by
  have hfound := Code.discovered_discoverFrom h
  have hscanned : ∀ span ∈ spans, code.scanFrom true span.start
      (code.instructions.drop span.start) = .ok (span.commands, span.ending) :=
    fun span hspan => Code.scan_eq_ok (hfound.scanned span hspan)
  refine ⟨hcode, hscanned, fun span hspan q hq => ?_, ?_⟩
  · refine exists_number hfound.nodup (hfound.targets span hspan q hq ?_)
    rw [Std.TreeSet.mem_ofList, List.contains_iff_mem, List.mem_range]
    exact Code.targets_scanFrom hcode List.length_drop (hscanned span hspan) q hq
  · obtain ⟨span, rest, rfl, hstart⟩ := Code.head_discover hne h
    exact ⟨span, rfl, hstart⟩

theorem getElem?_ofSpans (code : List Instruction) (labels : LabelTable) (spans : List Span)
    (n : BlockId) : (ofSpans code labels spans).entries[n]? =
      spans[n]?.map fun span =>
        .ofBlock (blockOfSpan code.toArray labels (numbersOf spans) span) := by
  simp [ofSpans]

theorem exists_span_of_block? {code : List Instruction} {labels : LabelTable} {spans : List Span}
    {n : BlockId} {b : Block} (h : (ofSpans code labels spans).block? n = some b) :
    ∃ span ∈ spans, b = blockOfSpan code.toArray labels (numbersOf spans) span := by
  rw [block?, getElem?_ofSpans, Option.map_map] at h
  obtain ⟨span, hspan, rfl⟩ := Option.map_eq_some_iff.1 h
  exact ⟨span, List.mem_of_getElem? hspan, rfl⟩

/-- A place in a run of the graph and the code where a run of the code stands then: a scan from
there finds the commands left. The number is 0 at the start of a run, where the graph does not
have to move on first. -/
inductive Follows (code : Code) (spans : List Span) : Nat → Place → List Instruction → Prop where
  | intro {n : BlockId} {span : Span} (first : Bool) {position : Nat} {commands : List Command}
    (hspan : spans[n]? = some span)
    (hscan : code.scanFrom first position (code.instructions.drop position) =
      .ok (commands, span.ending)) :
    Follows code spans (if first then 0 else 1) (.inside n commands)
      (code.instructions.drop position)

namespace Charted

variable {code : Code} {spans : List Span} (labels : LabelTable)

theorem block?_ofSpans (n : BlockId) {span : Span} (hspan : spans[n]? = some span) :
    (ofSpans code.instructions labels spans).block? n =
      some (blockOfSpan code.instructions.toArray labels (numbersOf spans) span) := by
  rw [block?, getElem?_ofSpans, hspan]
  rfl

/-- A run of the graph that enters a block stands where the block starts in the code. -/
theorem follows_enter (h : Charted code spans) {m : BlockId} {span : Span}
    (hspan : spans[m]? = some span) :
    Follows code spans 0 ((ofSpans code.instructions labels spans).enter m)
      (code.instructions.drop span.start) := by
  rw [enter_of_block? (block?_ofSpans labels m hspan)]
  exact .intro true hspan (h.scanned span (List.mem_of_getElem? hspan))

/-- Where a run of the graph goes, a run of the code goes. -/
theorem follows_target (h : Charted code spans) {n : BlockId} {span : Span}
    (hspan : spans[n]? = some span) {q : Nat} (hq : q ∈ span.ending.targets) :
    ∃ m, (numbersOf spans)[q]? = some m ∧
      Follows code spans 0 ((ofSpans code.instructions labels spans).enter m)
        (code.instructions.drop q) := by
  obtain ⟨m, target, hm, htarget, rfl⟩ := h.targets span (List.mem_of_getElem? hspan) q hq
  exact ⟨m, hm, h.follows_enter labels htarget⟩

theorem move_leave {n : BlockId} {span : Span} (hspan : spans[n]? = some span)
    (hend : span.ending = .leave) :
    (Machine.ofGraph (ofSpans code.instructions labels spans)).move (.inside n []) = .halt := by
  rw [move_inside_nil (block?_ofSpans labels n hspan), blockOfSpan, hend]
  rfl

theorem move_into (h : Charted code spans) {n : BlockId} {span : Span} {q : Nat}
    (hspan : spans[n]? = some span) (hend : span.ending = .into q) :
    ∃ place, (Machine.ofGraph (ofSpans code.instructions labels spans)).move (.inside n []) =
      .pass place ∧ Follows code spans 0 place (code.instructions.drop q) := by
  have hq : q ∈ span.ending.targets := hend ▸ List.mem_singleton_self q
  obtain ⟨m, hm, hfollows⟩ := h.follows_target labels hspan hq
  refine ⟨_, ?_, hfollows⟩
  rw [move_inside_nil (block?_ofSpans labels n hspan), blockOfSpan, hend]
  dsimp only
  rw [hm]
  rfl

theorem move_branch (h : Charted code spans) {n : BlockId} {span : Span} {clauses : List Clause}
    {next skip : Nat} (hspan : spans[n]? = some span)
    (hend : span.ending = .branch clauses next skip) :
    ∃ yes no, (Machine.ofGraph (ofSpans code.instructions labels spans)).move (.inside n []) =
      .ask clauses yes no ∧ Follows code spans 0 yes (code.instructions.drop next) ∧
        Follows code spans 0 no (code.instructions.drop skip) := by
  have hnext : next ∈ span.ending.targets := hend ▸ List.mem_cons_self
  have hskip : skip ∈ span.ending.targets :=
    hend ▸ List.mem_cons_of_mem _ (List.mem_singleton_self skip)
  obtain ⟨m, hm, hyes⟩ := h.follows_target labels hspan hnext
  obtain ⟨m', hm', hno⟩ := h.follows_target labels hspan hskip
  refine ⟨_, _, ?_, hyes, hno⟩
  rw [move_inside_nil (block?_ofSpans labels n hspan), blockOfSpan, hend]
  dsimp only
  rw [hm, hm']
  rfl

/-- **Both make the same moves.** -/
theorem matched (h : Charted code spans) {k : Nat} {place : Place} {left : List Instruction}
    (hf : Follows code spans k place left) :
    (Machine.ofGraph (ofSpans code.instructions labels spans)).Matched
      (Machine.ofCode code.instructions) (Follows code spans) k place left := by
  obtain @⟨n, span, first, position, commands, hspan, hscan⟩ := hf
  cases hleft : code.instructions.drop position with
  | nil =>
    rw [hleft] at hscan
    obtain ⟨rfl, hend⟩ := Prod.mk.inj (Except.ok.inj hscan)
    refine .both ?_
    rw [move_leave labels hspan hend.symm]
    exact .halt
  | cons i rest =>
    have hrest : code.instructions.drop (position + 1) = rest := by
      rw [← List.drop_drop, hleft]
      rfl
    rw [hleft] at hscan
    unfold Code.scanFrom at hscan
    split at hscan
    · -- the next run starts here, and only the graph notices
      rename_i hleader
      obtain ⟨rfl, hend⟩ := Prod.mk.inj (Except.ok.inj hscan)
      obtain ⟨place, hmove, hfollows⟩ := h.move_into labels hspan hend.symm
      have hfirst : first = false := by simpa using (Bool.and_eq_true_iff.1 hleader).1
      rw [hfirst, ← hleft]
      exact .left hmove hfollows Nat.zero_lt_one
    · cases i with
      | command a c =>
        dsimp only at hscan
        split at hscan
        · rename_i hr
          obtain ⟨rfl, _⟩ := Prod.mk.inj (Except.ok.inj hscan)
          refine .both ?_
          simp only [Machine.ofGraph, Machine.ofCode, hr, if_true]
          exact .halt
        · rename_i hr
          obtain ⟨r, hr', he⟩ := Result.map_eq_ok.1 hscan
          obtain ⟨rfl, hend⟩ := Prod.mk.inj he
          refine .both ?_
          simp only [Machine.ofGraph, Machine.ofCode, hr]
          refine .act c ⟨1, ?_⟩
          subst hrest
          exact .intro false hspan (hend ▸ hr')
      | condition a clauses skip =>
        dsimp only at hscan
        split at hscan
        · cases hscan
        · split at hscan
          · cases hscan
          · rename_i t
            obtain ⟨p, hp, he⟩ := Result.map_eq_ok.1 hscan
            obtain ⟨rfl, hend⟩ := Prod.mk.inj he
            obtain ⟨yes, no, hmove, hyes, hno⟩ := h.move_branch labels hspan hend.symm
            refine .both ?_
            rw [hmove]
            refine .ask clauses ⟨0, hrest ▸ hyes⟩ ⟨0, ?_⟩
            rw [Option.elim_some, (h.proper.resolve_eq_ok hp).2]
            exact hno
      | goto a t =>
        obtain ⟨p, hp, he⟩ := Result.map_eq_ok.1 hscan
        obtain ⟨rfl, hend⟩ := Prod.mk.inj he
        obtain ⟨place, hmove, hfollows⟩ := h.move_into labels hspan hend.symm
        refine .both ?_
        rw [hmove]
        exact .pass ⟨0, (h.proper.resolve_eq_ok hp).2 ▸ hfollows⟩

theorem plain_ofSpans (h : Charted code spans) :
    (ofSpans code.instructions labels spans).Plain := by
  constructor
  · intro n e he
    rw [getElem?_ofSpans] at he
    obtain ⟨span, _, rfl⟩ := Option.map_eq_some_iff.1 he
    rfl
  · intro n b hb clauses yes no hexit
    obtain ⟨span, hspan, rfl⟩ := exists_span_of_block? hb
    have hsize : (ofSpans code.instructions labels spans).size = spans.length := by
      simp [ofSpans, size]
    cases hend : span.ending with
    | leave => simp [blockOfSpan, hend] at hexit
    | into q => simp [blockOfSpan, hend] at hexit
    | branch clauses' next skip =>
      have hskip : skip ∈ span.ending.targets :=
        hend ▸ List.mem_cons_of_mem _ (List.mem_singleton_self skip)
      obtain ⟨m, target, hm, htarget, _⟩ := h.targets span hspan skip hskip
      simp only [blockOfSpan, hend, BlockExit.branch.injEq, hm, Option.some.injEq] at hexit
      rw [hsize, ← hexit.2.2]
      exact (List.getElem?_eq_some_iff.1 htarget).1

/-- The graph with all branches named runs like the code. -/
theorem equivalent_ofSpans (h : Charted code spans) :
    (Machine.ofGraph (ofSpans code.instructions labels spans)).Equivalent
      (Machine.ofCode code.instructions) := by
  obtain ⟨span, hspan, hstart⟩ := h.root
  have hroot := h.follows_enter labels hspan
  rw [hstart] at hroot
  exact Machine.equivalent_of_matched (Follows code spans) hroot fun _ _ _ => h.matched labels

end Charted

/-- What a scan finds stands in the code. -/
theorem effects_scanFrom {code : Code} {first : Bool} {position : Nat} {left : List Instruction}
    {r : List Command × SpanEnd} (h : code.scanFrom first position left = .ok r) :
    (∀ c ∈ r.1, .command c ∈ effectsOf left) ∧
      ∀ clauses next skip, r.2 = .branch clauses next skip → .test clauses ∈ effectsOf left := by
  fun_induction Code.scanFrom code first position left generalizing r with
  | case1 | case2 =>
    cases h
    exact ⟨fun c hc => (nomatch hc), fun _ _ _ he => (nomatch he)⟩
  | case3 first position rest _ a c _ =>
    cases h
    refine ⟨fun c' hc => ?_, fun _ _ _ he => (nomatch he)⟩
    rw [List.mem_singleton.1 hc]
    exact List.mem_cons_self
  | case4 first position rest _ a c _ ih =>
    obtain ⟨r', hr', rfl⟩ := Result.map_eq_ok.1 h
    obtain ⟨hcommands, hclauses⟩ := ih hr'
    refine ⟨List.forall_mem_cons.2 ⟨List.mem_cons_self, fun c' hc => ?_⟩, fun cs n s he => ?_⟩
    · exact List.mem_cons_of_mem _ (hcommands c' hc)
    · exact List.mem_cons_of_mem _ (hclauses cs n s he)
  | case5 | case6 => cases h
  | case7 first position rest _ a clauses _ t =>
    obtain ⟨p, _, rfl⟩ := Result.map_eq_ok.1 h
    refine ⟨fun c hc => (nomatch hc), fun cs n s he => ?_⟩
    cases he
    exact List.mem_cons_self
  | case8 first position rest _ a t =>
    obtain ⟨p, _, rfl⟩ := Result.map_eq_ok.1 h
    exact ⟨fun c hc => (nomatch hc), fun _ _ _ he => (nomatch he)⟩

theorem Charted.effects_subset {code : Code} {spans : List Span} (h : Charted code spans)
    (labels : LabelTable) {n : BlockId} {b : Block}
    (hb : (ofSpans code.instructions labels spans).block? n = some b) :
    b.effects ⊆ effectsOf code.instructions := by
  obtain ⟨span, hspan, rfl⟩ := exists_span_of_block? hb
  obtain ⟨hcommands, hclauses⟩ := effects_scanFrom (h.scanned span hspan)
  have hdrop : effectsOf (code.instructions.drop span.start) ⊆ effectsOf code.instructions :=
    ((List.drop_sublist _ _).filterMap _).subset
  intro e he
  refine hdrop ?_
  rcases List.mem_append.1 he with he | he
  · obtain ⟨c, hc, rfl⟩ := List.mem_map.1 he
    exact hcommands c hc
  · cases hend : span.ending with
    | leave => simp [blockOfSpan, hend] at he
    | into q => simp [blockOfSpan, hend] at he
    | branch clauses next skip =>
      simp only [blockOfSpan, hend, List.mem_singleton] at he
      exact he ▸ hclauses clauses next skip hend

theorem proper_ofInstructions {code : List Instruction} {marked : Code}
    (hn : (addresses code).Nodup) (h : Code.ofInstructions code = .ok marked) :
    marked.Proper ∧ marked.instructions = code := by
  obtain ⟨leaders, _, rfl⟩ := Result.map_eq_ok.1 h
  exact ⟨⟨rfl, hn⟩, rfl⟩

theorem ofInstructions_eq_ok_iff {code : List Instruction} {labels : LabelTable} {g : BlockGraph} :
    (ofInstructions code labels).result = .ok g ↔ code ≠ [] ∧ ∃ marked spans,
      Code.ofInstructions code = .ok marked ∧ marked.discover = .ok spans ∧
        g = (ofSpans code labels spans).openBranches := by
  unfold ofInstructions
  split
  · rename_i hnil
    refine ⟨fun h => (by cases h), fun h => absurd (List.isEmpty_iff.1 hnil) h.1⟩
  · rename_i hne
    constructor
    · intro h
      obtain ⟨marked, hmarked, h⟩ := Logged.result_bind_eq_ok.1 h
      obtain ⟨spans, hspans, h⟩ := Logged.result_bind_eq_ok.1 h
      obtain ⟨_, _, h⟩ := Logged.result_bind_eq_ok.1 h
      obtain ⟨_, _, h⟩ := Logged.result_bind_eq_ok.1 h
      cases h
      exact ⟨by simpa using hne, marked, spans, hmarked, hspans, rfl⟩
    · rintro ⟨_, marked, spans, hmarked, hspans, rfl⟩
      exact Logged.result_bind_eq_ok.2 ⟨marked, hmarked, Logged.result_bind_eq_ok.2 ⟨spans, hspans,
        Logged.result_bind_eq_ok.2 ⟨(), rfl, Logged.result_bind_eq_ok.2 ⟨(), rfl, rfl⟩⟩⟩⟩

/-- **The block graph of some code runs like the code**, and shows nothing else. -/
theorem equivalent_ofInstructions {code : List Instruction} {labels : LabelTable} {g : BlockGraph}
    (hn : (addresses code).Nodup) (h : (ofInstructions code labels).result = .ok g) :
    (Machine.ofCode code).Equivalent (Machine.ofGraph g) ∧
      ∀ n b, g.block? n = some b → b.effects ⊆ effectsOf code := by
  obtain ⟨hne, marked, spans, hmarked, hspans, rfl⟩ := ofInstructions_eq_ok_iff.1 h
  obtain ⟨hproper, rfl⟩ := proper_ofInstructions hn hmarked
  have hcharted := charted_discover hproper hne hspans
  constructor
  · rw [ofGraph_openBranches (hcharted.plain_ofSpans labels)]
    exact (hcharted.equivalent_ofSpans labels).symm
  · intro n b hb
    obtain ⟨b', hb', he⟩ := exists_block?_of_openBranches hb
    exact he ▸ hcharted.effects_subset labels hb'

end BlockGraph
end AdventureLogic
