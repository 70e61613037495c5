import AdventureLogic.Proofs.Program.Crossing

/-!
# A detour makes one more condition self-contained

What is put in for a crossing condition stands at the end of the region around
it, so the conditions before it stay self-contained, and it is self-contained
itself from then on (`Program.Detour.Valid.contained_after`). The next crossing
is further down, and the conditions from there on are among those that were
left.

Key definitions: `Program.conditions`, `Program.conditionsFrom`. Key theorems:
`Program.Detour.Valid.contained_after`, `Program.contained_selfContain`.
-/

namespace AdventureLogic
namespace Program

/-- The addresses of the conditions, in code order. -/
def conditions (code : List Instruction) : List Address :=
  addresses (code.filter Instruction.isCondition)

/-- The number of conditions from a position on. -/
def conditionsFrom (code : List Instruction) (position : Nat) : Nat :=
  (code.drop position).countP Instruction.isCondition

theorem length_conditions (code : List Instruction) :
    (conditions code).length = code.countP Instruction.isCondition := by
  rw [conditions, addresses, List.length_map, List.countP_eq_length_filter]

theorem conditions_append (code code' : List Instruction) :
    conditions (code ++ code') = conditions code ++ conditions code' := by
  rw [conditions, List.filter_append, addresses, List.map_append]
  rfl

theorem conditions_drop_sublist (code : List Instruction) {m n : Nat} (h : m ≤ n) :
    (conditions (code.drop n)).Sublist (conditions (code.drop m)) := by
  obtain ⟨k, rfl⟩ := Nat.exists_eq_add_of_le h
  rw [← List.drop_drop]
  exact ((List.drop_sublist k (code.drop m)).filter _).map _

theorem conditionsFrom_le_length (code : List Instruction) (position : Nat) :
    conditionsFrom code position ≤ code.length :=
  Nat.le_trans List.countP_le_length (List.drop_sublist position code).length_le

theorem conditions_drop_of_condition {code : List Instruction} {n : Nat} {a : Address}
    {clauses : List Clause} {skip : Option Address}
    (h : code[n]? = some (.condition a clauses skip)) :
    conditions (code.drop n) = a :: conditions (code.drop (n + 1)) := by
  obtain ⟨hlt, hget⟩ := List.getElem?_eq_some_iff.1 h
  rw [List.drop_eq_getElem_cons hlt, hget]
  rfl

namespace Detour

variable {d : Detour}

/-- Where an instruction stands after the change. -/
def shift (d : Detour) (n : Nat) : Nat :=
  if n < d.above.length then n else n + d.inserted.length

theorem shift_of_lt {n : Nat} (h : n < d.above.length) : d.shift n = n := if_pos h

theorem shift_of_le {n : Nat} (h : d.above.length ≤ n) : d.shift n = n + d.inserted.length :=
  if_neg (Nat.not_lt.2 h)

theorem le_shift (n : Nat) : n ≤ d.shift n := by
  unfold shift
  split <;> omega

theorem shift_mono {m n : Nat} (h : m ≤ n) : d.shift m ≤ d.shift n := by
  unfold shift
  split <;> split <;> omega

/-- Above the place of the change the instructions stand where they stood. -/
theorem getElem?_after_above {n : Nat} (h : n < d.above.length) :
    d.after[n]? = d.before[n]?.map d.reroute := by
  rw [after, before, List.getElem?_append_left (by simpa using h), List.getElem?_append_left h,
    List.getElem?_map]

theorem address_after_shift (n : Nat) :
    d.after[d.shift n]?.map Instruction.address = d.before[n]?.map Instruction.address := by
  by_cases h : n < d.above.length
  · rw [shift_of_lt h, getElem?_after_above h, Option.map_map]
    congr 1
    exact funext d.address_reroute
  · have hle := Nat.le_of_not_lt h
    rw [shift_of_le hle, after, before, List.getElem?_append_right hle, ← List.append_assoc,
      List.getElem?_append_right (by simp; omega)]
    congr 2
    simp
    omega

/-- The goto stands after the bypass. -/
theorem address_after_via :
    d.after[d.above.length + d.bypass.length]?.map Instruction.address = some d.via := by
  rw [after, inserted, List.append_assoc, List.getElem?_append_right (by simp),
    List.getElem?_append_right (by simp)]
  simp [Instruction.address]

/-- After the change a condition above it skips to where it skipped before, or to the goto. -/
theorem Valid.skips_after (h : d.Valid) {i s' : Nat} (hi : i < d.above.length)
    (hskip : Skips d.after i s') :
    d.before[i]?.map Instruction.address = some d.source ∧ s' = d.above.length + d.bypass.length ∨
      ∃ s, Skips d.before i s ∧ s' = d.shift s := by
  obtain ⟨a, clauses, t, hget, hs'⟩ := hskip
  rw [getElem?_after_above hi] at hget
  obtain ⟨x, hx, hreroute⟩ := Option.map_eq_some_iff.1 hget
  unfold reroute at hreroute
  by_cases hx' : x.address = d.source
  · rw [if_pos hx'] at hreroute
    left
    refine ⟨by rw [hx, Option.map_some, hx'], ?_⟩
    obtain rfl : t = d.via := by
      obtain ⟨clauses', rfl⟩ := h.source_unique (List.mem_of_getElem? hx) hx'
      cases hreroute
      rfl
    exact position_unique h.nodup_after hs' address_after_via
  · rw [if_neg hx'] at hreroute
    subst hreroute
    right
    obtain ⟨y, hy, hya⟩ := List.mem_map.1 (h.closed.target_mem _ (List.mem_of_getElem? hx) t rfl)
    obtain ⟨s, hs⟩ := List.mem_iff_getElem?.1 hy
    have hst : d.before[s]?.map Instruction.address = some t := by rw [hs, Option.map_some, hya]
    refine ⟨s, ⟨a, clauses, t, hx, hst⟩, position_unique h.nodup_after hs' ?_⟩
    rw [address_after_shift, hst]

/-- **A change makes one more condition self-contained.** -/
theorem Valid.contained_after (h : d.Valid) {c : Crossing} {clauses : List Clause}
    (hcross : Crosses d.before d.before.length c) (hlt : c.position < c.limit)
    (hlimit : d.above.length = c.limit)
    (hsource : d.above[c.position]? = some (.condition d.source clauses (some d.target))) :
    ContainedBefore d.after (c.position + 1) := by
  have hbefore : d.before[c.position]?.map Instruction.address = some d.source := by
    rw [before, List.getElem?_append_left (by omega), hsource]
    rfl
  -- The conditions before the crossing skip to where they skipped before.
  have hold : ∀ {i s'}, i < c.position → Skips d.after i s' →
      ∃ s, Skips d.before i s ∧ s' = d.shift s := by
    intro i s' hi hskip
    refine (h.skips_after (by omega) hskip).resolve_left fun hsame => ?_
    have heq := position_unique h.closed.nodup hsame.1 hbefore
    omega
  have hnew : ∀ {s'}, Skips d.after c.position s' → s' = c.limit + d.bypass.length := by
    intro s' hskip
    obtain ⟨a, clauses', t, hget, hs'⟩ := hskip
    rw [getElem?_after_above (by omega), before, List.getElem?_append_left (by omega),
      hsource] at hget
    have hvia : d.reroute (.condition d.source clauses (some d.target)) =
        .condition d.source clauses (some d.via) := if_pos rfl
    rw [Option.map_some, hvia] at hget
    cases hget
    rw [← hlimit]
    exact position_unique h.nodup_after hs' address_after_via
  have hinserted : d.inserted.length = d.bypass.length + 1 := by simp [inserted]
  refine ⟨fun {i s'} hi hskip => ?_, fun {i s₁ j s₂} hij hj h₁ h₂ hjs => ?_⟩
  · rcases Nat.eq_or_lt_of_le (Nat.le_of_lt_succ hi) with rfl | hi
    · rw [hnew hskip]
      omega
    · obtain ⟨s, hskip', rfl⟩ := hold hi hskip
      have hforward := hcross.contained.forward hi hskip'
      have hle := d.le_shift s
      omega
  · obtain ⟨s, hskip, rfl⟩ := hold (by omega) h₁
    have hjs' : j < s := by
      by_cases hs : s < d.above.length
      · rwa [shift_of_lt hs] at hjs
      · omega
    rcases Nat.eq_or_lt_of_le (Nat.le_of_lt_succ hj) with rfl | hj
    · have hle := hcross.limit_le hij hskip hjs'
      rw [hnew h₂, shift_of_le (by omega)]
      omega
    · obtain ⟨s', hskip', rfl⟩ := hold hj h₂
      exact shift_mono (hcross.contained.nested hij hj hskip hskip' hjs')

theorem isCondition_reroute (d : Detour) (i : Instruction) :
    (d.reroute i).isCondition = i.isCondition := by
  unfold reroute
  split
  · cases i <;> rfl
  · rfl

theorem conditions_map_reroute (d : Detour) (code : List Instruction) :
    conditions (code.map d.reroute) = conditions code := by
  have hsame : Instruction.isCondition ∘ d.reroute = Instruction.isCondition :=
    funext d.isCondition_reroute
  rw [conditions, List.filter_map, hsame, addresses_map_reroute]
  rfl

theorem Valid.isCondition_inserted (h : d.Valid) : ∀ i ∈ d.inserted, i.isCondition = false := by
  rw [inserted]
  rcases h.bypass with (⟨a, next, rest, _, hb⟩ | ⟨a, _, hb⟩) | ⟨hb, _⟩
  all_goals simp [hb, Instruction.isCondition]

/-- What is put in adds no condition. -/
theorem Valid.conditions_after (h : d.Valid) {n : Nat} (hn : n ≤ d.above.length) :
    conditions (d.after.drop n) = conditions (d.before.drop n) := by
  have hinserted : conditions d.inserted = [] := by
    rw [conditions, List.filter_eq_nil_iff.2 (by simpa using h.isCondition_inserted)]
    rfl
  rw [after, before, List.drop_append_of_le_length (by simpa), List.drop_append_of_le_length hn,
    ← List.map_drop, conditions_append, conditions_append, conditions_append, hinserted,
    conditions_map_reroute, List.nil_append]

end Detour

/-- The crossing that is found is no condition that is known to be self-contained. -/
theorem le_position_of_contained {p : Program} (hn : (addresses p.code).Nodup) {c : Crossing}
    (hc : p.crossing? = .ok (some c)) {k : Nat} (hk : ContainedBefore p.code k) :
    k ≤ c.position := by
  obtain ⟨_, hlt, _, _⟩ := crossingFrom_eq_some p.code (by simp) (Nat.zero_add _) hc
  refine Nat.le_of_not_lt fun hlt' => (crosses_of_crossing? hn hc).not_contained hlt ?_
  exact ⟨fun hi => hk.forward (by omega), fun hij hj => hk.nested hij (by omega)⟩

theorem conditionsFrom_pos {p : Program} (hn : (addresses p.code).Nodup) {c : Crossing}
    (hc : p.crossing? = .ok (some c)) {k : Nat} (hk : ContainedBefore p.code k) :
    0 < conditionsFrom p.code k := by
  obtain ⟨_, _, _, clauses, hget⟩ := crossingFrom_eq_some p.code (by simp) (Nat.zero_add _) hc
  have hsub := conditions_drop_sublist p.code (le_position_of_contained hn hc hk)
  rw [Nat.sub_zero] at hget
  rw [conditions_drop_of_condition hget] at hsub
  rw [conditionsFrom, ← length_conditions]
  exact List.length_pos_of_mem (hsub.subset List.mem_cons_self)

/-- **A change makes the first condition that crosses self-contained.** It comes after those that
are known to be, and so do the conditions that are left. -/
theorem contained_selfContain {p : Program} (hp : p.Sound) (h : p.selfContain.result = .ok true)
    {k : Nat} (hk : ContainedBefore p.code k) :
    ∃ (d : Detour) (n : Nat) (clauses : List Clause), d.Valid ∧ p.code = d.before ∧
      p.selfContain.program.code = d.after ∧
      d.above[n]? = some (.condition d.source clauses (some d.target)) ∧
      ContainedBefore d.after (n + 1) ∧
      (d.source :: conditions (d.after.drop (n + 1))).Sublist (conditions (p.code.drop k)) := by
  obtain ⟨d, hd, hbefore, hafter, _, c, clauses, hc, hlimit, hsource⟩ := exists_detour hp h
  obtain ⟨_, hlt, _, _⟩ := crossingFrom_eq_some p.code (by simp) (Nat.zero_add _) hc
  have hcross := crosses_of_crossing? hp.closed.nodup hc
  have hsub := conditions_drop_sublist p.code
    (le_position_of_contained hp.closed.nodup hc hk)
  have hcond : p.code[c.position]? = some (.condition d.source clauses (some d.target)) := by
    rw [hbefore, Detour.before, List.getElem?_append_left (by omega), hsource]
  rw [conditions_drop_of_condition hcond] at hsub
  rw [hbefore] at hcross
  refine ⟨d, c.position, clauses, hd, hbefore, hafter, hsource,
    hd.contained_after hcross hlt hlimit hsource, ?_⟩
  rw [hd.conditions_after (by omega), ← hbefore]
  exact hsub

end Program
end AdventureLogic
