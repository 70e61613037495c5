import AdventureLogic.Proofs.AddressPool
import AdventureLogic.Proofs.BlockGraph.ControlFlow
import Mathlib

/-!
# Blocks do not overlap

Blocks start at leaders only, and a run stops before the next leader. So no
block starts among the commands of another, and all blocks together have no
more commands than the code has instructions.

Key definition: `Code.Led`. Key theorems: `Code.led_ofInstructions`,
`BlockGraph.apart_openBranches`, `BlockGraph.sum_occupied_le`.
-/

namespace AdventureLogic

open Program (addresses)

namespace Code

/-- The leaders of code: its start, what follows an instruction that ends a block, and the targets
of jumps. -/
structure Led (code : Code) : Prop where
  first : 0 ∈ code.leaders
  next : ∀ {p : Nat} {i : Instruction}, code.instructions[p]? = some i → endsBlock i = true →
    p + 1 ∈ code.leaders
  target : ∀ {p q : Nat} {i : Instruction} {t : Address}, code.instructions[p]? = some i →
    i.target? = some t → resolve code.positions i.address t = .ok q → q ∈ code.leaders

theorem mem_leadersAt {positions : NatMap Nat} {i : Instruction} {p : Nat} {found : List Nat}
    (h : leadersAt positions i p = .ok found) :
    (endsBlock i = true → p + 1 ∈ found) ∧
      ∀ t q, i.target? = some t → resolve positions i.address t = .ok q → q ∈ found := by
  unfold leadersAt at h
  dsimp only at h
  split at h
  · cases h
  split at h
  · rename_i hnone
    cases h
    refine ⟨fun hends => ?_, fun t q ht => ?_⟩
    · rw [if_pos hends]
      exact List.mem_singleton_self _
    · rw [hnone] at ht
      cases ht
  · rename_i t ht
    obtain ⟨q, hq, rfl⟩ := Result.map_eq_ok.1 h
    refine ⟨fun hends => ?_, fun t' q' ht' hq' => ?_⟩
    · rw [if_pos hends]
      exact List.mem_cons_self
    · cases ht.symm.trans ht'
      cases hq.symm.trans hq'
      exact List.mem_append_right _ (List.mem_singleton_self _)

/-- **Leaders are found** wherever a block has to start. -/
theorem led_ofInstructions {code : List Instruction} {marked : Code}
    (h : ofInstructions code = .ok marked) : marked.Led := by
  obtain ⟨leaders, hleaders, rfl⟩ := Result.map_eq_ok.1 h
  obtain ⟨found, hfound, rfl⟩ := Result.map_eq_ok.1 hleaders
  have hmem : ∀ {p : Nat} {i : Instruction}, code[p]? = some i →
      ∃ here, leadersAt (positionsOf code) i p = .ok here ∧
        ∀ q ∈ here, q ∈ Std.TreeSet.ofList (0 :: found.flatten) := by
    intro p i hi
    obtain ⟨here, hhere, hleads⟩ := exists_of_forall₂ (Result.mapM_eq_ok.1 hfound)
      (List.mk_mem_zipIdx_iff_getElem?.2 hi)
    refine ⟨here, hleads, fun q hq => ?_⟩
    rw [Std.TreeSet.mem_ofList, List.contains_iff_mem]
    exact List.mem_cons_of_mem _ (List.mem_flatten.2 ⟨here, hhere, hq⟩)
  refine ⟨?_, fun {p i} hi hends => ?_, fun {p q i t} hi ht hq => ?_⟩
  · rw [Std.TreeSet.mem_ofList, List.contains_iff_mem]
    exact List.mem_cons_self
  · obtain ⟨here, hleads, hsub⟩ := hmem hi
    exact hsub _ ((mem_leadersAt hleads).1 hends)
  · obtain ⟨here, hleads, hsub⟩ := hmem hi
    exact hsub _ ((mem_leadersAt hleads).2 t q ht hq)

/-- A scan goes to leaders, and it comes across none on its way. -/
theorem leaders_scanFrom {code : Code} (hled : code.Led) {first : Bool} {position : Nat}
    {left : List Instruction} {r : List Command × SpanEnd}
    (hleft : code.instructions.drop position = left)
    (h : code.scanFrom first position left = .ok r) :
    (∀ q ∈ r.2.targets, q ∈ code.leaders) ∧
      ∀ k < r.1.length, first = false ∨ 0 < k → position + k ∉ code.leaders := by
  fun_induction scanFrom code first position left generalizing r with
  | case1 first position =>
    cases h
    exact ⟨fun q hq => absurd hq List.not_mem_nil, fun k hk => absurd hk (Nat.not_lt_zero k)⟩
  | case2 first position i rest hleader =>
    cases h
    refine ⟨fun q hq => ?_, fun k hk => absurd hk (Nat.not_lt_zero k)⟩
    rw [List.mem_singleton.1 hq]
    exact Std.TreeSet.contains_iff_mem.1 (Bool.and_eq_true_iff.1 hleader).2
  | case3 first position rest hleader a c hret =>
    cases h
    refine ⟨fun q hq => absurd hq List.not_mem_nil, fun k hk hfirst hmem => hleader ?_⟩
    obtain rfl : k = 0 := Nat.lt_one_iff.1 hk
    rcases hfirst with rfl | hpos
    · exact Std.TreeSet.contains_iff_mem.2 hmem
    · exact absurd hpos (Nat.lt_irrefl 0)
  | case4 first position rest hleader a c hret ih =>
    obtain ⟨r', hr', rfl⟩ := Result.map_eq_ok.1 h
    obtain ⟨htargets, hway⟩ := ih (drop_eq_cons hleft).2.1 hr'
    refine ⟨htargets, fun k hk hfirst hmem => ?_⟩
    cases k with
    | zero =>
      rcases hfirst with rfl | hpos
      · exact hleader (Std.TreeSet.contains_iff_mem.2 hmem)
      · exact absurd hpos (Nat.lt_irrefl 0)
    | succ k =>
      refine hway k (Nat.lt_of_succ_lt_succ hk) (.inl rfl) ?_
      rwa [Nat.add_assoc, Nat.add_comm 1 k]
  | case5 | case6 => cases h
  | case7 first position rest _ a clauses hrest t =>
    obtain ⟨p, hp, rfl⟩ := Result.map_eq_ok.1 h
    have hget := (drop_eq_cons hleft).1
    refine ⟨fun q hq => ?_, fun k hk => absurd hk (Nat.not_lt_zero k)⟩
    rcases List.mem_cons.1 hq with rfl | hq
    · exact hled.next hget rfl
    · rw [List.mem_singleton.1 hq]
      exact hled.target hget rfl hp
  | case8 first position rest _ a t =>
    obtain ⟨p, hp, rfl⟩ := Result.map_eq_ok.1 h
    refine ⟨fun q hq => ?_, fun k hk => absurd hk (Nat.not_lt_zero k)⟩
    rw [List.mem_singleton.1 hq]
    exact hled.target (drop_eq_cons hleft).1 rfl hp

end Code

namespace BlockGraph

section Survey

variable {code : Code} {spans : List Span} (labels : LabelTable) (hled : code.Led)
  (hcode : code.Proper) (hne : code.instructions ≠ []) (h : code.discover = .ok spans)

include hled hcode hne h

/-- **No block starts among the commands of another.** -/
theorem apart_openBranches {m n : BlockId} {b : Block}
    (hm : m < (ofSpans code.instructions labels spans).openBranches.size)
    (hb : (ofSpans code.instructions labels spans).openBranches.block? n = some b)
    (hlt : startOf spans n < startOf spans m) :
    startOf spans n + b.commands.length ≤ startOf spans m := by
  have hscanned := (charted_discover hcode hne h).scanned
  have hleads : ∀ span ∈ spans, span.start ∈ code.leaders := by
    refine Code.discoverFrom_induction h ?_ fun span hspan _ => ?_
    · intro q hq
      rw [List.mem_singleton.1 hq]
      exact hled.first
    · exact (Code.leaders_scanFrom hled rfl (hscanned span hspan)).1
  have hplain := (charted_discover hcode hne h).plain_ofSpans labels
  obtain ⟨span, hspan, hof⟩ := exists_blockOf labels hplain hb
  rw [size_openBranches, size_ofSpans] at hm
  have hother := hleads _ (List.getElem_mem hm)
  rw [← startOf_eq (List.getElem?_eq_getElem hm)] at hother
  rw [startOf_eq hspan, hof.commands] at *
  refine Nat.le_of_not_lt fun hinside => ?_
  obtain ⟨k, hk⟩ := Nat.exists_eq_add_of_lt hlt
  rw [hk] at hinside hother
  have hlength : k + 1 < span.commands.length := by omega
  exact (Code.leaders_scanFrom hled rfl (hscanned span (List.mem_of_getElem? hspan))).2 (k + 1)
    hlength (.inr (Nat.succ_pos k)) hother

end Survey

/-- The positions of the commands of a block. -/
def occupied (g : BlockGraph) (start : BlockId → Nat) (n : BlockId) : List Nat :=
  (g.block? n).elim [] fun b => List.range' (start n) b.commands.length

theorem mem_occupied {g : BlockGraph} {start : BlockId → Nat} {n : BlockId} {p : Nat}
    (hp : p ∈ occupied g start n) :
    ∃ b, g.block? n = some b ∧ start n ≤ p ∧ p < start n + b.commands.length := by
  unfold occupied at hp
  cases hb : g.block? n with
  | none =>
    rw [hb] at hp
    cases hp
  | some b =>
    rw [hb] at hp
    exact ⟨b, rfl, List.mem_range'_1.1 hp⟩

/-- There are no more blocks than instructions, for each starts at its own. -/
theorem Outlines.size_le {code : List Instruction} {g : BlockGraph} {start : BlockId → Nat}
    (h : Outlines code g start) : g.size ≤ code.length := by
  have hnodup : ((List.range g.size).map start).Nodup := by
    refine List.nodup_range.map_on fun m hm n hn => ?_
    exact h.injective m (List.mem_range.1 hm) n (List.mem_range.1 hn)
  have hlength : ((List.range g.size).map start).length ≤ code.length := by
    refine length_le_of_forall_lt hnodup fun p hp => ?_
    obtain ⟨n, hn, rfl⟩ := List.mem_map.1 hp
    exact h.start_lt (List.mem_range.1 hn)
  rwa [List.length_map, List.length_range] at hlength

/-- **Blocks take up no more than the code.** Their commands stand at different positions. -/
theorem sum_occupied_le {code : List Instruction} {labels : LabelTable} {g : BlockGraph}
    (hn : (addresses code).Nodup) (h : (ofInstructions code labels).result = .ok g) :
    ∃ start, Outlines code g start ∧ ∀ blocks : List BlockId, blocks.Nodup →
      (blocks.map fun n => (occupied g start n).length).sum ≤ code.length := by
  obtain ⟨hne, marked, spans, hmarked, hspans, rfl⟩ := ofInstructions_eq_ok_iff.1 h
  have hled := Code.led_ofInstructions hmarked
  obtain ⟨hproper, rfl⟩ := proper_ofInstructions hn hmarked
  have hout := outlines_openBranches labels hproper hne hspans
  refine ⟨_, hout, fun blocks hblocks => ?_⟩
  rw [← List.length_flatMap]
  refine length_le_of_forall_lt (List.nodup_flatMap.2 ⟨fun n _ => ?_, ?_⟩) fun p hp => ?_
  · unfold occupied
    cases (ofSpans marked.instructions labels spans).openBranches.block? n with
    | none => exact List.nodup_nil
    | some b => exact List.nodup_range'
  · refine hblocks.imp fun {m n} hdiff p hm hn => ?_
    obtain ⟨b, hb, hm⟩ := mem_occupied hm
    obtain ⟨b', hb', hn⟩ := mem_occupied hn
    rcases Nat.lt_trichotomy (startOf spans m) (startOf spans n) with hlt | heq | hlt
    · have := apart_openBranches labels hled hproper hne hspans (lt_size_of_block? hb') hb hlt
      omega
    · exact hdiff (hout.injective m (lt_size_of_block? hb) n (lt_size_of_block? hb') heq)
    · have := apart_openBranches labels hled hproper hne hspans (lt_size_of_block? hb) hb' hlt
      omega
  · obtain ⟨n, _, hp⟩ := List.mem_flatMap.1 hp
    obtain ⟨b, hb, hp⟩ := mem_occupied hp
    have := (hout.block n b hb).bound
    omega

end BlockGraph
end AdventureLogic
