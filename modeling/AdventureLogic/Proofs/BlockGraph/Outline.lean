import Mathlib
import AdventureLogic.Proofs.BlockGraph.Discovery
import AdventureLogic.Proofs.Dominance.Paths

/-!
# Block graphs outline their code

Each block of the graph of some code is a run of its instructions: the commands
stand one after the other from the start of the block on, and after them stands
what the exit says. A condition leads to the block that starts right after it
and to the one that starts at its skip target; these two are where control can
go from the block, whether the second is named or left open. Every block can be
reached from the root, for only blocks that control can reach are looked for.

Key definitions: `Code.Runs`, `BlockGraph.Outlines`. Key theorems:
`Code.runs_scanFrom`, `Code.discoverFrom_induction`, `BlockGraph.ofInstructions_outlines`.
-/

namespace AdventureLogic

open Program (addresses)

namespace Code

/-- How a run that ends before the position `finish` goes on. A run that starts with an instruction
(`first`) is not without commands unless that instruction ends it. -/
inductive RunEnds (code : List Instruction) (first : Bool) (commands : List Command)
    (finish : Nat) : SpanEnd → Prop where
  | branch {a t : Address} {clauses : List Clause} {skip : Nat}
    (hcondition : code[finish]? = some (.condition a clauses (some t)))
    (hnext : finish + 1 < code.length) (hskip : code[skip]?.map Instruction.address = some t) :
    RunEnds code first commands finish (.branch clauses (finish + 1) skip)
  | goto {a t : Address} {q : Nat} (hgoto : code[finish]? = some (.goto a t))
    (htarget : code[q]?.map Instruction.address = some t) :
    RunEnds code first commands finish (.into q)
  | next (hlt : finish < code.length) (hne : first = true → commands ≠ []) :
    RunEnds code first commands finish (.into finish)
  | leave (hne : first = true → commands ≠ [])
    (hlast : (∃ c, commands.getLast? = some c ∧ c.isReturn) ∨ finish = code.length) :
    RunEnds code first commands finish .leave

/-- A run of instructions: the commands from a position on, and how it goes on after them. -/
structure Runs (code : List Instruction) (first : Bool) (position : Nat) (commands : List Command)
    (ending : SpanEnd) : Prop where
  bound : position + commands.length ≤ code.length
  stand : ∀ k c, commands[k]? = some c → ∃ a, code[position + k]? = some (.command a c)
  ends : RunEnds code first commands (position + commands.length) ending

theorem Runs.nil {code : List Instruction} {first : Bool} {position : Nat} {ending : SpanEnd}
    (hle : position ≤ code.length) (h : RunEnds code first [] position ending) :
    Runs code first position [] ending :=
  ⟨hle, fun k c hk => (by cases hk), h⟩

/-- A command before a run makes it longer. -/
theorem Runs.cons {code : List Instruction} {first : Bool} {position : Nat} {a : Address}
    {c : Command} {commands : List Command} {ending : SpanEnd}
    (hget : code[position]? = some (.command a c))
    (h : Runs code false (position + 1) commands ending) :
    Runs code first position (c :: commands) ending := by
  have hlen : position + (c :: commands).length = position + 1 + commands.length := by
    rw [List.length_cons]
    omega
  refine ⟨hlen ▸ h.bound, fun k c' hk => ?_, ?_⟩
  · cases k with
    | zero =>
      cases hk
      exact ⟨a, hget⟩
    | succ k =>
      obtain ⟨b, hb⟩ := h.stand k c' hk
      exact ⟨b, by rw [← hb, Nat.add_assoc, Nat.add_comm 1 k]⟩
  · rw [hlen]
    have hne : first = true → c :: commands ≠ [] := fun _ => List.cons_ne_nil _ _
    cases h.ends with
    | branch hcondition hnext hskip => exact .branch hcondition hnext hskip
    | goto hgoto htarget => exact .goto hgoto htarget
    | next hlt _ => exact .next hlt hne
    | leave _ hlast =>
      refine .leave hne (hlast.imp_left ?_)
      rintro ⟨c', hc', hr⟩
      refine ⟨c', ?_, hr⟩
      rw [List.getLast?_cons, hc']
      rfl

/-- **A scan finds a run of the code.** By induction on the instructions that are left. -/
theorem runs_scanFrom {code : Code} (hpositions : code.positions = positionsOf code.instructions)
    {first : Bool} {position : Nat} {left : List Instruction} {r : List Command × SpanEnd}
    (hleft : code.instructions.drop position = left) (hle : position ≤ code.instructions.length)
    (hfirst : first = true → left ≠ []) (h : code.scanFrom first position left = .ok r) :
    Runs code.instructions first position r.1 r.2 := by
  have hresolve : ∀ {a t : Address} {p : Nat}, resolve code.positions a t = .ok p →
      code.instructions[p]?.map Instruction.address = some t := fun hp =>
    (resolve_eq_ok (hpositions ▸ hp)).2
  fun_induction scanFrom code first position left generalizing r with
  | case1 first position =>
    cases h
    have hlen := List.drop_eq_nil_iff.1 hleft
    exact .nil hle (.leave (fun hf => absurd rfl (hfirst hf)) (.inr (Nat.le_antisymm hle hlen)))
  | case2 first position i rest hleader =>
    cases h
    obtain ⟨_, _, hlen⟩ := drop_eq_cons hleft
    have hf : first = false := by simpa using (Bool.and_eq_true_iff.1 hleader).1
    refine .nil hle (.next (by omega) fun ht => ?_)
    rw [hf] at ht
    cases ht
  | case3 first position rest _ a c hret =>
    cases h
    obtain ⟨hget, _, hlen⟩ := drop_eq_cons hleft
    refine ⟨by rw [List.length_singleton]; omega, fun k c' hk => ?_,
      .leave (fun _ => List.cons_ne_nil _ _) (.inl ⟨c, rfl, hret⟩)⟩
    cases k with
    | zero =>
      cases hk
      exact ⟨a, hget⟩
    | succ k => cases hk
  | case4 first position rest _ a c _ ih =>
    obtain ⟨r', hr', rfl⟩ := Result.map_eq_ok.1 h
    obtain ⟨hget, hdrop, hlen⟩ := drop_eq_cons hleft
    exact (ih hdrop (by omega) (by simp) hr').cons hget
  | case5 | case6 => cases h
  | case7 first position rest _ a clauses hrest t =>
    obtain ⟨p, hp, rfl⟩ := Result.map_eq_ok.1 h
    obtain ⟨hget, _, hlen⟩ := drop_eq_cons hleft
    have hpos : 0 < rest.length := List.length_pos_iff.2 (by simpa using hrest)
    exact .nil hle (.branch hget (by omega) (hresolve hp))
  | case8 first position rest _ a t =>
    obtain ⟨p, hp, rfl⟩ := Result.map_eq_ok.1 h
    obtain ⟨hget, _, _⟩ := drop_eq_cons hleft
    exact .nil hle (.goto hget (hresolve hp))

/-- What holds where the search starts and goes from each run to where control goes from it holds
wherever a run was found. -/
theorem discoverFrom_induction {code : Code} {unseen : Std.TreeSet Nat} {work : List Nat}
    {spans : List Span} {P : Nat → Prop} (h : code.discoverFrom unseen work = .ok spans)
    (hwork : ∀ q ∈ work, P q)
    (hstep : ∀ span ∈ spans, P span.start → ∀ q ∈ span.ending.targets, P q) :
    ∀ span ∈ spans, P span.start := by
  fun_induction discoverFrom code unseen work generalizing spans with
  | case1 =>
    cases h
    exact fun _ hs => absurd hs List.not_mem_nil
  | case2 => cases h
  | case3 unseen start work _ span hscan ih =>
    obtain ⟨rest, hrest, rfl⟩ := Result.map_eq_ok.1 h
    obtain ⟨hstart, hwork⟩ := List.forall_mem_cons.1 hwork
    have hspan : P span.start := start_scan hscan ▸ hstart
    refine List.forall_mem_cons.2 ⟨hspan, ih hrest ?_ fun s hs => ?_⟩
    · exact List.forall_mem_append.2 ⟨hstep span List.mem_cons_self hspan, hwork⟩
    · exact hstep s (List.mem_cons_of_mem _ hs)
  | case4 unseen start work _ ih => exact ih h (List.forall_mem_cons.1 hwork).2 hstep

end Code

namespace BlockGraph

/-- What follows the commands of a block in the code, and how the exit of the block says it.
`finish` is the position after the commands. -/
inductive ExitAt (code : List Instruction) (g : BlockGraph) (start : BlockId → Nat) (n : BlockId)
    (b : Block) (finish : Nat) : Prop where
  /-- A condition: on to the block after it, or to the one at its skip target. -/
  | branch {a t : Address} {clauses : List Clause} {no : Option BlockId} {m m' : BlockId}
    (hcondition : code[finish]? = some (.condition a clauses (some t)))
    (hexit : b.exit = .branch clauses (some m) no)
    (hno : no.or (Layout.mergePoint g g.postDominators n) = some m')
    (hnext : m < g.size ∧ start m = finish + 1)
    (hskip : m' < g.size ∧ code[start m']?.map Instruction.address = some t)
    (hsuccessors : ∀ k, k ∈ g.successors n ↔ k = m ∨ k = m')
  /-- A goto. -/
  | goto {a t : Address} {m : BlockId} (hgoto : code[finish]? = some (.goto a t))
    (hexit : b.exit = .single (some m))
    (htarget : m < g.size ∧ code[start m]?.map Instruction.address = some t)
    (hsuccessors : ∀ k, k ∈ g.successors n ↔ k = m)
  /-- The start of another block. -/
  | next {m : BlockId} (hne : b.commands ≠ []) (hexit : b.exit = .single (some m))
    (hnext : m < g.size ∧ start m = finish) (hsuccessors : ∀ k, k ∈ g.successors n ↔ k = m)
  /-- A return was the last command, or the code ends. -/
  | leave (hne : b.commands ≠ []) (hexit : b.exit = .single none)
    (hlast : (∃ c, b.commands.getLast? = some c ∧ c.isReturn) ∨ finish = code.length)
    (hsuccessors : ∀ k, k ∉ g.successors n)

/-- The block stands in the code from its start on. -/
structure BlockAt (code : List Instruction) (g : BlockGraph) (start : BlockId → Nat) (n : BlockId)
    (b : Block) : Prop where
  bound : start n + b.commands.length ≤ code.length
  stand : ∀ k c, b.commands[k]? = some c → ∃ a, code[start n + k]? = some (.command a c)
  ends : ExitAt code g start n b (start n + b.commands.length)

/-- The blocks of the graph stand in the code, each from its own position on. -/
structure Outlines (code : List Instruction) (g : BlockGraph) (start : BlockId → Nat) : Prop where
  root : g.root < g.size ∧ start g.root = 0
  injective : ∀ m < g.size, ∀ n < g.size, start m = start n → m = n
  block : ∀ n b, g.block? n = some b → BlockAt code g start n b

/-- Where the block of a run starts. -/
def startOf (spans : List Span) (n : BlockId) : Nat := (spans[n]?.map Span.start).getD 0

theorem startOf_eq {spans : List Span} {n : BlockId} {span : Span} (h : spans[n]? = some span) :
    startOf spans n = span.start := by
  rw [startOf, h]
  rfl

section Survey

variable {code : Code} {spans : List Span} (labels : LabelTable)

/-- Control can go where the run goes. -/
theorem mem_successors_ofSpans {n : BlockId} {span : Span} (hspan : spans[n]? = some span)
    (k : BlockId) : k ∈ (ofSpans code.instructions labels spans).successors n ↔
      ∃ q ∈ span.ending.targets, (numbersOf spans)[q]? = some k := by
  rw [successors, getElem?_ofSpans, hspan]
  show k ∈ BlockEntry.successors _ ↔ _
  rw [BlockEntry.mem_successors]
  simp only [BlockEntry.ofBlock, Block.exitTargets, blockOfSpan, List.not_mem_nil, or_false]
  cases span.ending with
  | branch clauses next skip => simp [SpanEnd.targets]
  | into q => simp [SpanEnd.targets]
  | leave => simp [SpanEnd.targets]

theorem size_ofSpans : (ofSpans code.instructions labels spans).size = spans.length := by
  simp [ofSpans, size]

theorem start_lt_of_discover (h : code.discover = .ok spans) :
    ∀ span ∈ spans, span.start < code.instructions.length := by
  intro span hspan
  have hmem := (Code.discovered_discoverFrom h).fresh _ (List.mem_map_of_mem hspan)
  rwa [Std.TreeSet.mem_ofList, List.contains_iff_mem, List.mem_range] at hmem

/-- The runs that are found are runs of the code. -/
theorem runs_discover (hcode : code.Proper) (hne : code.instructions ≠ [])
    (h : code.discover = .ok spans) : ∀ span ∈ spans,
      Code.Runs code.instructions true span.start span.commands span.ending := by
  intro span hspan
  have hlt := start_lt_of_discover h span hspan
  have hscan := (charted_discover hcode hne h).scanned span hspan
  refine Code.runs_scanFrom hcode.positions rfl (Nat.le_of_lt hlt) (fun _ hnil => ?_) hscan
  exact Nat.not_lt.2 (List.drop_eq_nil_iff.1 hnil) hlt

/-- The block of a run, with its branch left open or not: the exit leads to where the run goes. -/
structure BlockOf (g : BlockGraph) (spans : List Span) (n : BlockId) (b : Block) (span : Span) :
    Prop where
  commands : b.commands = span.commands
  leave : span.ending = .leave → b.exit = .single none
  into : ∀ q, span.ending = .into q → b.exit = .single (numbersOf spans)[q]?
  branch : ∀ clauses next skip, span.ending = .branch clauses next skip →
    ∃ no, b.exit = .branch clauses (numbersOf spans)[next]? no ∧
      ∀ m, (numbersOf spans)[skip]? = some m →
        no.or (Layout.mergePoint g g.postDominators n) = some m

theorem exists_blockOf (hg : (ofSpans code.instructions labels spans).Plain) {n : BlockId}
    {b : Block} (hb : (ofSpans code.instructions labels spans).openBranches.block? n = some b) :
    ∃ span, spans[n]? = some span ∧
      BlockOf (ofSpans code.instructions labels spans).openBranches spans n b span := by
  rw [block?_openBranches] at hb
  obtain ⟨e, he, rfl⟩ := Option.map_eq_some_iff.1 hb
  have hopen := exit_openBranch hg he
  have hcommands := commands_openBranch (ofSpans code.instructions labels spans).postDominators n e
  rw [getElem?_ofSpans] at he
  obtain ⟨span, hspan, rfl⟩ := Option.map_eq_some_iff.1 he
  refine ⟨span, hspan, hcommands, fun hend => ?_, fun q hend => ?_, fun clauses next skip hend => ?_⟩
  · rcases hopen with hsame | ⟨clauses, yes, no, hexit, _⟩
    · rw [hsame]
      simp only [BlockEntry.block_ofBlock, blockOfSpan, hend]
    · simp only [BlockEntry.block_ofBlock, blockOfSpan, hend] at hexit
      cases hexit
  · rcases hopen with hsame | ⟨clauses, yes, no, hexit, _⟩
    · rw [hsame]
      simp only [BlockEntry.block_ofBlock, blockOfSpan, hend]
    · simp only [BlockEntry.block_ofBlock, blockOfSpan, hend] at hexit
      cases hexit
  · rcases hopen with hsame | ⟨clauses', yes, no, hexit, hopened, hmerge⟩
    · refine ⟨(numbersOf spans)[skip]?, ?_, fun m hm => ?_⟩
      · rw [hsame]
        simp only [BlockEntry.block_ofBlock, blockOfSpan, hend]
      · rw [hm]
        rfl
    · simp only [BlockEntry.block_ofBlock, blockOfSpan, hend, BlockExit.branch.injEq] at hexit
      obtain ⟨rfl, rfl, hno⟩ := hexit
      refine ⟨none, hopened, fun m hm => ?_⟩
      rw [mergePoint_openBranches hg, hmerge, ← hno, hm]
      rfl

variable (hcode : code.Proper) (hne : code.instructions ≠ []) (h : code.discover = .ok spans)

include hcode hne h

/-- Each place where a run goes has its block. -/
theorem exists_target {n : BlockId} {span : Span} (hspan : spans[n]? = some span) {q : Nat}
    (hq : q ∈ span.ending.targets) : ∃ m, (numbersOf spans)[q]? = some m ∧
      m < (ofSpans code.instructions labels spans).openBranches.size ∧ startOf spans m = q := by
  obtain ⟨m, target, hm, htarget, hstart⟩ :=
    (charted_discover hcode hne h).targets span (List.mem_of_getElem? hspan) q hq
  refine ⟨m, hm, ?_, (startOf_eq htarget).trans hstart⟩
  rw [size_openBranches, size_ofSpans]
  exact (List.getElem?_eq_some_iff.1 htarget).1

/-- What follows the commands of a block is what its exit says. -/
theorem exitAt_openBranches {n : BlockId} {b : Block} {span : Span} (hspan : spans[n]? = some span)
    (hb : BlockOf (ofSpans code.instructions labels spans).openBranches spans n b span)
    {finish : Nat} (hends : Code.RunEnds code.instructions true b.commands finish span.ending) :
    ExitAt code.instructions (ofSpans code.instructions labels spans).openBranches (startOf spans)
      n b finish := by
  have hplain := (charted_discover hcode hne h).plain_ofSpans labels
  have hsuccessors : ∀ k, k ∈ (ofSpans code.instructions labels spans).openBranches.successors n ↔
      ∃ q ∈ span.ending.targets, (numbersOf spans)[q]? = some k := by
    rw [successors_openBranches hplain]
    exact mem_successors_ofSpans labels hspan
  have htarget := fun q hq => exists_target labels hcode hne h hspan (q := q) hq
  cases hend : span.ending with
  | leave =>
    rw [hend] at hends hsuccessors
    cases hends with
    | leave hne hlast =>
      refine .leave (hne rfl) (hb.leave hend) hlast fun k hk => ?_
      obtain ⟨q, hq, _⟩ := (hsuccessors k).1 hk
      cases hq
  | into q =>
    rw [hend] at hends hsuccessors htarget
    obtain ⟨m, hm, hlt, hstart⟩ := htarget q (List.mem_singleton_self q)
    have hexit := hb.into q hend
    rw [hm] at hexit
    have honly : ∀ k, k ∈ (ofSpans code.instructions labels spans).openBranches.successors n ↔
        k = m := by
      intro k
      rw [hsuccessors]
      simp [SpanEnd.targets, hm, eq_comm]
    cases hends with
    | goto hgoto ht => exact .goto hgoto hexit ⟨hlt, hstart ▸ ht⟩ honly
    | next _ hne => exact .next (hne rfl) hexit ⟨hlt, hstart⟩ honly
  | branch clauses next skip =>
    rw [hend] at hends hsuccessors htarget
    obtain ⟨m, hm, hlt, hstart⟩ := htarget next List.mem_cons_self
    obtain ⟨m', hm', hlt', hstart'⟩ :=
      htarget skip (List.mem_cons_of_mem _ (List.mem_singleton_self skip))
    obtain ⟨no, hexit, hno⟩ := hb.branch clauses next skip hend
    rw [hm] at hexit
    cases hends with
    | branch hcondition _ hskip =>
      refine .branch hcondition hexit (hno m' hm') ⟨hlt, hstart⟩ ⟨hlt', hstart' ▸ hskip⟩ fun k => ?_
      rw [hsuccessors]
      simp [SpanEnd.targets, hm, hm', eq_comm]

/-- **The graph outlines the code.** -/
theorem outlines_openBranches :
    Outlines code.instructions (ofSpans code.instructions labels spans).openBranches
      (startOf spans) := by
  have hcharted := charted_discover hcode hne h
  have hsize : (ofSpans code.instructions labels spans).openBranches.size = spans.length := by
    rw [size_openBranches, size_ofSpans]
  refine ⟨?_, fun m hm n hn heq => ?_, fun n b hb => ?_⟩
  · obtain ⟨span, hspan, hstart⟩ := hcharted.root
    exact ⟨hsize ▸ (List.getElem?_eq_some_iff.1 hspan).1, (startOf_eq hspan).trans hstart⟩
  · have hnumber : ∀ k < (ofSpans code.instructions labels spans).openBranches.size,
        (numbersOf spans)[startOf spans k]? = some k := by
      intro k hk
      have hget := List.getElem?_eq_getElem (hsize ▸ hk)
      rw [startOf_eq hget]
      exact getElem?_numbersOf (Code.discovered_discoverFrom h).nodup hget
    have hsame := hnumber m hm
    rw [heq, hnumber n hn] at hsame
    exact (Option.some.inj hsame).symm
  · obtain ⟨span, hspan, hb⟩ := exists_blockOf labels (hcharted.plain_ofSpans labels) hb
    have hrun := runs_discover hcode hne h span (List.mem_of_getElem? hspan)
    rw [← startOf_eq hspan, ← hb.commands] at hrun
    exact ⟨hrun.bound, hrun.stand, exitAt_openBranches labels hcode hne h hspan hb hrun.ends⟩

/-- **Every block can be reached.** The search goes on from a run only to where control goes. -/
theorem reachable_openBranches : ∀ n < (ofSpans code.instructions labels spans).openBranches.size,
    (ofSpans code.instructions labels spans).openBranches.toGraph.Reachable n := by
  have hcharted := charted_discover hcode hne h
  have hsize : (ofSpans code.instructions labels spans).openBranches.size = spans.length := by
    rw [size_openBranches, size_ofSpans]
  have hout := outlines_openBranches labels hcode hne h
  have hfound : ∀ span ∈ spans, ∀ n < spans.length, startOf spans n = span.start →
      (ofSpans code.instructions labels spans).openBranches.toGraph.Reachable n := by
    refine Code.discoverFrom_induction h (P := fun q => ∀ n < spans.length, startOf spans n = q →
      (ofSpans code.instructions labels spans).openBranches.toGraph.Reachable n) ?_ ?_
    · intro q hq n hn hstart
      rw [List.mem_singleton.1 hq, ← hout.root.2] at hstart
      rw [hout.injective n (hsize ▸ hn) _ hout.root.1 hstart]
      exact ⟨_, .root hout.root.1⟩
    · intro span hspan hreach q hq m hm hstart
      obtain ⟨n, hn⟩ := List.mem_iff_getElem?.1 hspan
      obtain ⟨path, hpath⟩ := hreach n (List.getElem?_eq_some_iff.1 hn).1 (startOf_eq hn)
      obtain ⟨m', hm', hlt, hstart'⟩ := exists_target labels hcode hne h hn hq
      obtain rfl := hout.injective m (hsize ▸ hm) m' hlt (hstart.trans hstart'.symm)
      refine ⟨_, .step hpath ?_ hlt⟩
      rw [successors_toGraph, successors_openBranches (hcharted.plain_ofSpans labels)]
      exact (mem_successors_ofSpans labels hn m).2 ⟨q, hq, hm'⟩
  intro n hn
  rw [hsize] at hn
  have hget := List.getElem?_eq_getElem hn
  exact hfound _ (List.getElem_mem hn) n hn (startOf_eq hget)

end Survey

/-- The graph of some code outlines it, and all its blocks can be reached. -/
theorem exists_outlines {code : List Instruction} {labels : LabelTable} {g : BlockGraph}
    (hn : (addresses code).Nodup) (h : (ofInstructions code labels).result = .ok g) :
    (∃ start, Outlines code g start) ∧ ∀ n < g.size, g.toGraph.Reachable n := by
  obtain ⟨hne, marked, spans, hmarked, hspans, rfl⟩ := ofInstructions_eq_ok_iff.1 h
  obtain ⟨hproper, rfl⟩ := proper_ofInstructions hn hmarked
  exact ⟨⟨_, outlines_openBranches labels hproper hne hspans⟩,
    reachable_openBranches labels hproper hne hspans⟩

/-- **The block graph of some code does what the code does.** Its runs have the same effects, and
they halt where those of the code do. Every block can be reached from the root. The blocks stand in
the code, each from its own position on, and control can go from a block that ends in a condition
exactly to the block that starts after the condition and to the one that starts at its skip target:
these are the branches of the block, of which the second may be left open. -/
theorem ofInstructions_outlines (code : List Instruction) (labels : LabelTable) (g : BlockGraph)
    (hn : (addresses code).Nodup) (h : (ofInstructions code labels).result = .ok g) :
    (Machine.ofCode code).Equivalent (Machine.ofGraph g) ∧
    (∀ n < g.size, g.toGraph.Reachable n) ∧
    ∃ start : BlockId → Nat, start g.root = 0 ∧
      (∀ m < g.size, ∀ n < g.size, start m = start n → m = n) ∧
      ∀ n b, g.block? n = some b →
        (∀ k c, b.commands[k]? = some c → ∃ a, code[start n + k]? = some (.command a c)) ∧
        ∀ clauses yes no, b.exit = .branch clauses yes no → ∃ a t next skip,
          code[start n + b.commands.length]? = some (.condition a clauses (some t)) ∧
          next < g.size ∧ start next = start n + b.commands.length + 1 ∧
          skip < g.size ∧ code[start skip]?.map Instruction.address = some t ∧
          (∀ k, k ∈ g.successors n ↔ k = next ∨ k = skip) ∧
          yes = some next ∧ no.or (Layout.mergePoint g g.postDominators n) = some skip := by
  obtain ⟨⟨start, hout⟩, hreachable⟩ := exists_outlines hn h
  refine ⟨(equivalent_ofInstructions hn h).1, hreachable, start, hout.root.2, hout.injective,
    fun n b hb => ?_⟩
  have hat := hout.block n b hb
  refine ⟨hat.stand, fun clauses yes no hexit => ?_⟩
  cases hat.ends with
  | branch hcondition hexit' hno hnext hskip hsuccessors =>
    rw [hexit] at hexit'
    cases hexit'
    exact ⟨_, _, _, _, hcondition, hnext.1, hnext.2, hskip.1, hskip.2, hsuccessors, rfl, hno⟩
  | goto _ hexit' | next _ hexit' | leave _ hexit' =>
    rw [hexit] at hexit'
    cases hexit'

/-- A loop with two ways out, of which one meets the other right after it, and an instruction that
control does not reach. -/
def twoExitLoop : List Instruction :=
  [.condition 0 [.test ⟨7, [5], false⟩] (some 5), .command 1 ⟨12, [5]⟩,
    .condition 2 [.test ⟨7, [6], false⟩] (some 6), .goto 3 1, .goto 4 0, .command 5 ⟨12, [6]⟩,
    .command 6 Command.ret]

theorem ofInstructions_outlines_twoExitLoop :
    (addresses twoExitLoop).Nodup ∧ ∃ g, (ofInstructions twoExitLoop ∅).result = .ok g ∧
      g.entries.map (fun e => (e.block.exit, e.extra)) =
        #[(.branch [.test ⟨7, [5], false⟩] (some 1) (some 4), []),
          (.branch [.test ⟨7, [6], false⟩] (some 2) none, [3]), (.single (some 1), []),
          (.single none, []), (.single (some 3), [])] ∧
      (Machine.ofCode twoExitLoop).Equivalent (Machine.ofGraph g) ∧
      ∀ n < g.size, g.toGraph.Reachable n := by
  have hn : (addresses twoExitLoop).Nodup := by decide
  have hrun : (ofInstructions twoExitLoop ∅).result.map (fun g =>
      g.entries.map (fun e => (e.block.exit, e.extra))) = .ok
        #[(.branch [.test ⟨7, [5], false⟩] (some 1) (some 4), []),
          (.branch [.test ⟨7, [6], false⟩] (some 2) none, [3]), (.single (some 1), []),
          (.single none, []), (.single (some 3), [])] := by cbv
  obtain ⟨g, hg, hentries⟩ := Result.map_eq_ok.1 hrun
  obtain ⟨hequivalent, hreachable, _⟩ := ofInstructions_outlines twoExitLoop ∅ g hn hg
  exact ⟨hn, g, hg, hentries, hequivalent, hreachable⟩

end BlockGraph
end AdventureLogic
