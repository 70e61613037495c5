import AdventureLogic.Proofs.Program.Fixpoint
import Mathlib.Data.List.TakeWhile

/-!
# The search for a crossing condition

A condition and the position it skips to bound a region. Conditions are
self-contained if the regions are nested: a condition skips forward, and not
past the end of a region around it. The search goes through the code with the
ends of the open regions at hand, from the inside out (`Program.Opened`). If it
finds nothing, all conditions are self-contained; what it finds is the first
condition that is not (`Program.Crosses`).

Key definitions: `Program.Skips`, `Program.SelfContained`,
`Program.ContainedBefore`, `Program.Crosses`. Key theorems:
`Program.selfContained_of_crossing?`, `Program.crosses_of_crossing?`.
-/

namespace AdventureLogic
namespace Program

/-- The condition at position `i` skips to position `s`. -/
def Skips (code : List Instruction) (i s : Nat) : Prop :=
  ∃ a clauses t, code[i]? = some (.condition a clauses (some t)) ∧
    code[s]?.map Instruction.address = some t

/-- No condition skips backward, or past the end of a region around it. -/
structure SelfContained (code : List Instruction) : Prop where
  forward : ∀ {i s}, Skips code i s → i < s
  nested : ∀ {i s j s'}, Skips code i s → Skips code j s' → i < j → j < s → s' ≤ s

/-- No condition before a position does. -/
structure ContainedBefore (code : List Instruction) (position : Nat) : Prop where
  forward : ∀ {i s}, i < position → Skips code i s → i < s
  nested : ∀ {i s j s'}, i < j → j < position → Skips code i s → Skips code j s' → j < s → s' ≤ s

variable {code : List Instruction}

namespace Skips

theorem unique (hn : (addresses code).Nodup) {i s s' : Nat} (h : Skips code i s)
    (h' : Skips code i s') : s = s' := by
  obtain ⟨a, clauses, t, hi, hs⟩ := h
  obtain ⟨a', clauses', t', hi', hs'⟩ := h'
  rw [hi] at hi'
  cases hi'
  exact position_unique hn hs hs'

theorem source_lt {i s : Nat} (h : Skips code i s) : i < code.length := by
  obtain ⟨a, clauses, t, hi, _⟩ := h
  exact (List.getElem?_eq_some_iff.1 hi).1

theorem target_lt {i s : Nat} (h : Skips code i s) : s < code.length := by
  obtain ⟨a, clauses, t, _, hs⟩ := h
  obtain ⟨j, hj, _⟩ := Option.map_eq_some_iff.1 hs
  exact (List.getElem?_eq_some_iff.1 hj).1

end Skips

theorem ContainedBefore.selfContained {position : Nat} (h : ContainedBefore code position)
    (hle : code.length ≤ position) : SelfContained code where
  forward hskip := h.forward (Nat.lt_of_lt_of_le hskip.source_lt hle) hskip
  nested hskip hskip' hij hj :=
    h.nested hij (Nat.lt_of_lt_of_le hskip'.source_lt hle) hskip hskip' hj

/-- What the search knows at a position: the conditions before it are self-contained, and the list
has the ends of the regions that are open there. -/
structure Opened (code : List Instruction) (regions : List Nat) (position : Nat) : Prop where
  contained : ContainedBefore code position
  sorted : regions.Pairwise (· ≤ ·)
  source : ∀ r ∈ regions, ∃ i < position, Skips code i r
  mem : ∀ {i s}, i < position → Skips code i s → position < s → s ∈ regions

namespace Opened

variable {regions : List Nat} {position : Nat}

theorem start (code : List Instruction) : Opened code [] 0 := by
  refine ⟨⟨?_, ?_⟩, .nil, ?_, ?_⟩
  · intro i s hi
    omega
  · intro i s j s' _ hj
    omega
  · intro r hr
    cases hr
  · intro i s hi
    omega

/-- Regions that end before a position are no longer open there. -/
theorem dropWhile (h : Opened code regions position) :
    Opened code (regions.dropWhile (· ≤ position)) position := by
  refine ⟨h.contained, h.sorted.sublist (List.dropWhile_sublist _), fun r hr => ?_,
    fun {i s} hi hskip hs => ?_⟩
  · exact h.source r ((List.dropWhile_sublist _).subset hr)
  · have hmem := h.mem hi hskip hs
    rw [← List.takeWhile_append_dropWhile (p := (· ≤ position)) (l := regions)] at hmem
    refine (List.mem_append.1 hmem).resolve_left fun hclosed => ?_
    have hle := List.mem_takeWhile_imp hclosed
    simp only [decide_eq_true_eq] at hle
    omega

/-- An instruction that opens no region. -/
theorem next (h : Opened code regions position) (hnone : ∀ s, ¬Skips code position s) :
    Opened code regions (position + 1) := by
  have hbefore : ∀ {i s}, i < position + 1 → Skips code i s → i < position := by
    intro i s hi hskip
    refine Nat.lt_of_le_of_ne (Nat.le_of_lt_succ hi) ?_
    rintro rfl
    exact hnone s hskip
  refine ⟨⟨fun hi hskip => h.contained.forward (hbefore hi hskip) hskip,
    fun hij hj hskip hskip' => h.contained.nested hij (hbefore hj hskip') hskip hskip'⟩, h.sorted,
    fun r hr => ?_, fun hi hskip hs => h.mem (hbefore hi hskip) hskip (by omega)⟩
  obtain ⟨i, hi, hskip⟩ := h.source r hr
  exact ⟨i, by omega, hskip⟩

/-- A condition that skips forward, and not past the end of an open region, opens one more. -/
theorem condition (h : Opened code regions position) (hn : (addresses code).Nodup) {s : Nat}
    (hskip : Skips code position s) (hlt : position < s) (hle : ∀ r ∈ regions, s ≤ r) :
    Opened code (s :: regions) (position + 1) := by
  refine ⟨⟨?_, ?_⟩, List.pairwise_cons.2 ⟨hle, h.sorted⟩, List.forall_mem_cons.2 ⟨?_, ?_⟩, ?_⟩
  · intro i s' hi hskip'
    rcases Nat.eq_or_lt_of_le (Nat.le_of_lt_succ hi) with rfl | hi
    · rwa [hskip'.unique hn hskip]
    · exact h.contained.forward hi hskip'
  · intro i s₁ j s₂ hij hj h₁ h₂ hjs
    rcases Nat.eq_or_lt_of_le (Nat.le_of_lt_succ hj) with rfl | hj
    · rw [h₂.unique hn hskip]
      exact hle s₁ (h.mem hij h₁ hjs)
    · exact h.contained.nested hij hj h₁ h₂ hjs
  · exact ⟨position, Nat.lt_succ_self _, hskip⟩
  · intro r hr
    obtain ⟨i, hi, hskip'⟩ := h.source r hr
    exact ⟨i, by omega, hskip'⟩
  · intro i s' hi hskip' hs'
    rcases Nat.eq_or_lt_of_le (Nat.le_of_lt_succ hi) with rfl | hi
    · rw [hskip'.unique hn hskip]
      exact List.mem_cons_self
    · exact List.mem_cons_of_mem _ (h.mem hi hskip' (by omega))

end Opened

/-- A bound on the innermost of the open regions bounds them all. -/
theorem forall_le_of_le_headD {regions : List Nat} {s size : Nat}
    (hsorted : regions.Pairwise (· ≤ ·)) (h : s ≤ regions.headD size) : ∀ r ∈ regions, s ≤ r := by
  cases regions with
  | nil => simp
  | cons head rest =>
    intro r hr
    have hs : s ≤ head := h
    rcases List.mem_cons.1 hr with rfl | hr
    · exact hs
    · exact Nat.le_trans hs (List.rel_of_pairwise_cons hsorted hr)

/-- A condition skips out of the innermost region around it, and no condition before does. -/
structure Crosses (code : List Instruction) (size : Nat) (c : Crossing) : Prop where
  contained : ContainedBefore code c.position
  /-- The region around it is the innermost. -/
  limit_le : ∀ {i s}, i < c.position → Skips code i s → c.position < s → c.limit ≤ s
  limit : c.limit = size ∨ ∃ i < c.position, Skips code i c.limit
  skips : ∃ s, Skips code c.position s ∧ (c.position < s → c.limit < s)

/-- **The search finds the first condition that crosses.** By induction on the code that is
left. -/
theorem opened_crossingFrom {whole : List Instruction} {size : Nat} {regions : List Nat}
    {position : Nat} (hn : (addresses whole).Nodup) (ho : Opened whole regions position)
    (hcode : whole.drop position = code) :
    (crossingFrom (positionsOf whole) size regions position code = .ok none →
      SelfContained whole) ∧
    ∀ c, crossingFrom (positionsOf whole) size regions position code = .ok (some c) →
      Crosses whole size c := by
  fun_induction crossingFrom (positionsOf whole) size regions position code with
  | case1 regions position =>
    refine ⟨fun _ => ho.contained.selfContained (List.drop_eq_nil_iff.1 hcode), fun c h => ?_⟩
    cases h
  | case2 =>
    refine ⟨fun h => ?_, fun c h => ?_⟩ <;> cases h
  | case3 regions position rest open_ a clauses t s hs hfits ih =>
    obtain ⟨hget, hdrop, _⟩ := drop_eq_cons hcode
    have hskip : Skips whole position s :=
      ⟨a, clauses, t, hget, ((get?_positionsOf_eq_some_iff whole t s).1 hs).1⟩
    have hopen := ho.dropWhile
    exact ih (hopen.condition hn hskip hfits.1 (forall_le_of_le_headD hopen.sorted hfits.2)) hdrop
  | case4 regions position rest open_ a clauses t s hs hcross =>
    obtain ⟨hget, _, _⟩ := drop_eq_cons hcode
    refine ⟨fun h => (by cases h), fun c h => ?_⟩
    cases h
    have hopen := ho.dropWhile
    refine ⟨ho.contained, fun {i s'} hi hskip hs' => ?_, ?_, s, ?_, fun hlt => ?_⟩
    · exact forall_le_of_le_headD hopen.sorted (Nat.le_refl _) s' (hopen.mem hi hskip hs')
    · exact (headD_dropWhile regions size).imp_right fun hmem => ho.source _ hmem
    · exact ⟨a, clauses, t, hget, ((get?_positionsOf_eq_some_iff whole t s).1 hs).1⟩
    · exact Nat.lt_of_not_le fun hle => hcross ⟨hlt, hle⟩
  | case5 regions position i rest open_ hi ih =>
    obtain ⟨hget, hdrop, _⟩ := drop_eq_cons hcode
    refine ih (ho.dropWhile.next ?_) hdrop
    rintro s ⟨a, clauses, t, hcond, _⟩
    exact hi a clauses t (Option.some.inj (hget.symm.trans hcond))

theorem selfContained_of_crossing? {p : Program} (hn : (addresses p.code).Nodup)
    (h : p.crossing? = .ok none) : SelfContained p.code :=
  (opened_crossingFrom hn (.start _) List.drop_zero).1 h

theorem crosses_of_crossing? {p : Program} (hn : (addresses p.code).Nodup) {c : Crossing}
    (h : p.crossing? = .ok (some c)) : Crosses p.code p.code.length c :=
  (opened_crossingFrom hn (.start _) List.drop_zero).2 c h

/-- What the search finds is not self-contained. -/
theorem Crosses.not_contained {c : Crossing} (h : Crosses code code.length c)
    (hlt : c.position < c.limit) : ¬ContainedBefore code (c.position + 1) := by
  intro hcontained
  obtain ⟨s, hskip, hcross⟩ := h.skips
  have hforward := hcontained.forward (Nat.lt_succ_self _) hskip
  have hpast := hcross hforward
  rcases h.limit with hlimit | ⟨i, hi, hregion⟩
  · have hs := hskip.target_lt
    omega
  · have hnested := hcontained.nested hi (Nat.lt_succ_self _) hregion hskip hlt
    omega

end Program
end AdventureLogic
