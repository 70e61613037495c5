import AdventureLogic.Proofs.Program.Nesting
import Mathlib.Data.List.Chain

/-!
# Normal form is final

Each pass is run until it finds nothing to change, and then the next one takes
over. The later passes make no work for the earlier ones.

Unreachable instructions are gone when every instruction right after a goto is
the target of a jump (`Program.Entered`). A detour keeps this: the goto that it
puts in is the target of the condition, and behind that goto comes the end of a
region, which some condition skips to. Dropping redundant gotos keeps it too.
What comes to stand behind a kept goto stood behind a goto before, and the jump
that led there is kept, or its twin is; gotos in between that led on send that
jump on to the same place.

Key definition: `Program.Entered`. Key theorems:
`Program.dropUnreachable_unchanged_iff`, `Program.entered_selfContain`,
`Program.entered_tidy`, `Program.normalize_idempotent`.
-/

namespace AdventureLogic
namespace Program

/-- What stands right after a goto is the target of some jump. -/
def Entered (code : List Instruction) : Prop :=
  code.IsChain fun i j => i.isGoto = true → some j.address ∈ code.map Instruction.target?

/-! ## Unreachable instructions -/

/-- No instruction is marked for dropping if those right after a goto have labels. -/
theorem any_markReachable (labels : LabelTable) (code : List Instruction) :
    ∀ afterGoto : Bool, (markReachable labels afterGoto code).any (!·.2) = false ↔
      (afterGoto = true → ∀ i ∈ code.head?, labels.contains i.address = true) ∧
        code.IsChain fun i j => i.isGoto = true → labels.contains j.address = true := by
  induction code with
  | nil => simp [markReachable]
  | cons i rest ih =>
    intro afterGoto
    rw [markReachable, List.any_cons, Bool.or_eq_false_iff, ih, List.isChain_cons]
    have hflag : (!(!afterGoto || labels.contains i.address)) = false ↔
        (afterGoto = true → labels.contains i.address = true) := by
      cases afterGoto <;> simp
    have hnext : (i.isGoto = true → ∀ j ∈ rest.head?, labels.contains j.address = true) ↔
        ∀ j ∈ rest.head?, i.isGoto = true → labels.contains j.address = true :=
      ⟨fun h j hj hi => h hi j hj, fun h hi j hj => h j hj hi⟩
    rw [hflag, hnext]
    simp

/-- **Nothing is unreachable exactly if every instruction after a goto is a target.** -/
theorem dropUnreachable_unchanged_iff {p : Program} (hp : p.Sound) :
    p.dropUnreachable.result = .ok false ↔ Entered p.code := by
  have hresult : p.dropUnreachable.result = .ok false ↔
      (markReachable p.labels false p.code).any (!·.2) = false := by
    simp [dropUnreachable]
  rw [hresult, any_markReachable]
  simp [Entered, hp.labelled]

/-! ## Detours -/

namespace Detour

variable {d : Detour}

theorem isGoto_reroute (i : Instruction) : (d.reroute i).isGoto = i.isGoto := by
  unfold reroute
  split
  · cases i <;> rfl
  · rfl

/-- The condition is sent to the new goto. -/
theorem Valid.via_mem_targets (h : d.Valid) : some d.via ∈ d.after.map Instruction.target? := by
  obtain ⟨clauses, hmem⟩ := h.source_mem
  refine List.mem_map.2 ⟨.condition d.source clauses (some d.via), ?_, rfl⟩
  have hreroute : d.reroute (.condition d.source clauses (some d.target)) =
      .condition d.source clauses (some d.via) := if_pos rfl
  rw [← hreroute]
  exact List.mem_append_left _ (List.mem_map_of_mem hmem)

/-- What was a target is one: the new goto takes over the target of the condition. -/
theorem Valid.targets_subset (h : d.Valid) {a : Address}
    (ha : some a ∈ d.before.map Instruction.target?) :
    some a ∈ d.after.map Instruction.target? := by
  obtain ⟨i, hi, ht⟩ := List.mem_map.1 ha
  by_cases hsource : i.address = d.source
  · obtain ⟨clauses, rfl⟩ := h.source_unique hi hsource
    refine List.mem_map.2 ⟨.goto d.via d.target, ?_, ht⟩
    simp [after, inserted]
  · refine List.mem_map.2 ⟨i, ?_, ht⟩
    rcases List.mem_append.1 hi with habove | hbelow
    · have hsame : d.reroute i = i := if_neg hsource
      rw [← hsame]
      exact List.mem_append_left _ (List.mem_map_of_mem habove)
    · exact List.mem_append_right _ (List.mem_append_right _ hbelow)

/-- A detour keeps what stands after gotos a target, if what it is put in front of is one and no
goto stands before the bypass. -/
theorem Valid.entered_after (h : d.Valid) (he : Entered d.before)
    (hbelow : ∀ i ∈ d.below.head?, some i.address ∈ d.before.map Instruction.target?)
    (hbypass : ∀ i ∈ d.above.getLast?, i.isGoto = true → d.bypass = []) : Entered d.after := by
  have he' : d.before.IsChain fun i j =>
      i.isGoto = true → some j.address ∈ d.after.map Instruction.target? :=
    he.imp fun _ _ hij hi => h.targets_subset (hij hi)
  obtain ⟨habove', hbelow', _⟩ := List.isChain_append.1 he'
  have hvia := h.via_mem_targets
  have hnext : ∀ i ∈ d.below.head?, some i.address ∈ d.after.map Instruction.target? :=
    fun i hi => h.targets_subset (hbelow i hi)
  unfold Entered
  generalize d.after.map Instruction.target? = targets at *
  refine List.isChain_append.2 ⟨?_, List.isChain_append.2 ⟨?_, hbelow', ?_⟩, ?_⟩
  · rw [List.isChain_map]
    simpa only [isGoto_reroute, address_reroute] using habove'
  · -- The bypass stands before the new goto, and that is the target of the condition.
    rw [inserted]
    rcases h.bypass with (⟨a, next, rest, _, hb⟩ | ⟨a, _, hb⟩) | ⟨hb, _⟩
    all_goals rw [hb]; simp [Instruction.address, hvia]
  · exact fun _ _ j hj _ => hnext j hj
  · intro i hi j hj hgoto
    rw [List.getLast?_map] at hi
    obtain ⟨x, hx, rfl⟩ := Option.map_eq_some_iff.1 hi
    rw [isGoto_reroute] at hgoto
    rw [inserted, hbypass x hx hgoto] at hj
    cases hj
    exact hvia

end Detour

/-- Where control does not run into the end of the region, the code grows by the new goto only. -/
theorem length_selfContain_le {p : Program} (h : p.selfContain.result = .ok true) {c : Crossing}
    (hc : p.crossing? = .ok (some c)) (hfalls : fallsInto p.code c.limit = false) :
    p.selfContain.program.code.length ≤ p.code.length + 1 := by
  obtain ⟨c', n, a, pool, hc', _, _, hprogram⟩ := selfContain_eq_ok_true h
  obtain rfl : c = c' := Option.some.inj (Except.ok.inj (hc.symm.trans hc'))
  rw [hprogram, bridge_of_not_fallsInto hfalls, List.length_modify, List.length_insertIdx]
  dsimp only
  split <;> omega

/-- **Making a condition self-contained makes nothing unreachable.** -/
theorem entered_selfContain {p : Program} (hp : p.Sound) (he : Entered p.code)
    (h : p.selfContain.result = .ok true) : Entered p.selfContain.program.code := by
  obtain ⟨d, hd, hbefore, hafter, _, c, _, hc, hlimit, _⟩ := exists_detour hp h
  rw [hafter]
  refine hd.entered_after (hbefore ▸ he) (target_below hbefore hc hlimit) fun i hi hgoto => ?_
  -- A goto does not fall through, so no bypass is put in behind it.
  have hfalls : fallsInto p.code c.limit = false := by
    rw [hbefore, Detour.before, ← hlimit, fallsInto_append, Option.mem_def.1 hi, Option.any_some]
    refine Bool.eq_false_iff.2 fun hfalls => ?_
    rw [Instruction.isGoto_of_fallsThrough hfalls] at hgoto
    cases hgoto
  have hlength := length_selfContain_le h hc hfalls
  rw [hafter, hbefore] at hlength
  simp only [Detour.after, Detour.before, Detour.inserted, List.length_append, List.length_map,
    List.length_singleton] at hlength
  exact List.eq_nil_of_length_eq_zero (by omega)

/-! ## Redundant gotos -/

section Redirections

variable {code : List Instruction} {n : Nat} {i : Instruction}

theorem getElem?_of_judge {v : Verdict} (h : (judge none none code)[n]? = some (i, v)) :
    code[n]? = some i := by
  rw [← map_fst_judge none none code, List.getElem?_map, h]
  rfl

theorem exists_judge (h : code[n]? = some i) : ∃ v, (judge none none code)[n]? = some (i, v) := by
  rw [← map_fst_judge none none code, List.getElem?_map] at h
  obtain ⟨⟨_, v⟩, hv, rfl⟩ := Option.map_eq_some_iff.1 h
  exact ⟨v, hv⟩

/-- An idle goto leads to the next position. -/
theorem next_of_idle {t : Address} (h : (judge none none code)[n]? = some (i, .idle t)) :
    i = .goto i.address t ∧ code[n + 1]?.map Instruction.address = some t := by
  obtain ⟨front, previous, kept, rfl, hsplit⟩ := exists_split_at (getElem?_of_judge h)
  have hverdict := Prod.mk.inj (Option.some.inj (hsplit.getElem?.symm.trans h))
  obtain ⟨hgoto, hnext⟩ := verdict_eq_idle hverdict.2
  rw [List.head?_drop] at hnext
  exact ⟨hgoto, hnext⟩

/-- A repeated goto has its twin, which is kept, right before it. -/
theorem twin_of_repeated (hn : (addresses code).Nodup) {k : Address}
    (h : (judge none none code)[n]? = some (i, .repeated k)) :
    ∃ m t, m + 1 = n ∧ i = .goto i.address t ∧
      (judge none none code)[m]? = some (.goto k t, .keep) := by
  obtain ⟨front, previous, kept, rfl, hsplit⟩ := exists_split_at (getElem?_of_judge h)
  have hverdict := Prod.mk.inj (Option.some.inj (hsplit.getElem?.symm.trans h))
  obtain ⟨t, hgoto, hkept, rfl⟩ := verdict_eq_repeated hverdict.2
  obtain ⟨m, hm, htwin⟩ := hsplit.getElem?_previous hn hkept
  exact ⟨m, t, hm, hgoto, htwin⟩

/-- A jump to the instruction at position `n + 1` is kept or has a twin that is, unless it is an idle
goto at position `n`. -/
theorem exists_kept_jump (hn : (addresses code).Nodup) {j : Instruction} {v : Verdict}
    (hi : (judge none none code)[n]? = some (i, v)) (hv : ∀ t, v ≠ .idle t)
    (hj : code[n + 1]? = some j) (hjump : some j.address ∈ code.map Instruction.target?) :
    ∃ x, x ∈ ((judge none none code).filter fun e => e.2 = .keep).map Prod.fst ∧
      x.target? = some j.address := by
  have hkept : ∀ {m : Nat} {x : Instruction}, (judge none none code)[m]? = some (x, .keep) →
      x ∈ ((judge none none code).filter fun e => e.2 = .keep).map Prod.fst := fun h =>
    List.mem_map.2 ⟨_, List.mem_filter.2 ⟨List.mem_of_getElem? h, by simp⟩, rfl⟩
  obtain ⟨x, hx, htarget⟩ := List.mem_map.1 hjump
  obtain ⟨m, hm⟩ := List.mem_iff_getElem?.1 hx
  obtain ⟨w, hw⟩ := exists_judge hm
  cases w with
  | keep => exact ⟨x, hkept hw, htarget⟩
  | idle t =>
    -- It stands right before its target, so at `n`.
    obtain ⟨hgoto, hnext⟩ := next_of_idle hw
    rw [hgoto] at htarget
    cases htarget
    have hposition : m + 1 = n + 1 := position_unique hn hnext (by rw [hj]; rfl)
    obtain rfl : m = n := by omega
    rw [hi] at hw
    cases hw
    exact absurd rfl (hv _)
  | repeated k =>
    obtain ⟨_, t, _, hgoto, htwin⟩ := twin_of_repeated hn hw
    rw [hgoto] at htarget
    exact ⟨_, hkept htwin, htarget⟩

/-- A jump to an instruction that repeats no goto is sent forward, over dropped instructions only. -/
theorem exists_sent_forward (hn : (addresses code).Nodup) {v : Verdict}
    (h : (judge none none code)[n]? = some (i, v)) (hv : ∀ k, v ≠ .repeated k) :
    ∃ k j, n ≤ k ∧ rank (judge none none code) k = rank (judge none none code) n ∧
      (judge none none code)[k]? = some (j, .keep) ∧
      resolve (sentOf code) i.address = j.address := by
  cases v with
  | keep => exact ⟨n, i, Nat.le_refl _, rfl, h, resolve_of_keep hn (List.mem_of_getElem? h) _⟩
  | idle t =>
    obtain ⟨_, hnext⟩ := next_of_idle h
    obtain ⟨k, j, hsent, hfollow⟩ := exists_sentTo_follow hn hnext (Nat.le_refl _)
    have hrank : rank (judge none none code) (n + 1) = rank (judge none none code) n := by
      rw [rank_succ h, if_neg (by simp), Nat.add_zero]
    have hresolve : resolve (sentOf code) i.address = j.address := by
      rw [← hfollow, resolve, follow, get?_sentOf hn (List.mem_of_getElem? h)]
      rfl
    rcases hsent.near with ⟨hle, hk⟩ | ⟨hk, _⟩
    · exact ⟨k, j, by omega, hk.trans hrank, hsent.kept, hresolve⟩
    · obtain rfl : k = n := by omega
      cases hsent.kept.symm.trans h
  | repeated k => exact absurd rfl (hv k)

/-- Two kept instructions with equally many kept ones before them are one. -/
theorem eq_of_rank_eq {j : Instruction} {k m : Nat}
    (hk : (judge none none code)[k]? = some (i, .keep))
    (hm : (judge none none code)[m]? = some (j, .keep))
    (hrank : rank (judge none none code) k = rank (judge none none code) m) : k = m := by
  rcases Nat.lt_trichotomy k m with hlt | heq | hlt
  · have := rank_lt hk hlt
    omega
  · exact heq
  · have := rank_lt hm hlt
    omega

/-- Between two instructions that come to stand next to each other all is dropped. -/
theorem rank_between {m u : Nat} (hi : (judge none none code)[n]? = some (i, .keep))
    (hm : rank (judge none none code) m = rank (judge none none code) n + 1) (hnu : n < u)
    (hum : u ≤ m) : rank (judge none none code) u = rank (judge none none code) m := by
  have hlow := rank_lt hi hnu
  have hhigh : rank (judge none none code) u ≤ rank (judge none none code) m := rank_mono hum
  omega

/-- A jump to position `u`, behind a goto that is not idle, leads in what is left to the next kept
instruction. -/
theorem exists_jump_tidy (hn : (addresses code).Nodup) (he : Entered code) {u m : Nat}
    {j y : Instruction} {v w : Verdict} (hi : (judge none none code)[n]? = some (i, v))
    (hgoto : i.isGoto = true) (hv : ∀ t, v ≠ .idle t) (hu : u = n + 1)
    (hj : (judge none none code)[u]? = some (j, w)) (hw : ∀ k, w ≠ .repeated k)
    (hy : (judge none none code)[m]? = some (y, .keep))
    (hrank : rank (judge none none code) u = rank (judge none none code) m) :
    some y.address ∈ (tidy (sentOf code) code).map Instruction.target? := by
  subst hu
  have hcode := getElem?_of_judge hj
  obtain ⟨hnlt, hnget⟩ := List.getElem?_eq_some_iff.1 (getElem?_of_judge hi)
  obtain ⟨hult, huget⟩ := List.getElem?_eq_some_iff.1 hcode
  have hjump : some j.address ∈ code.map Instruction.target? := by
    have hchain := List.isChain_iff_getElem.1 he n hult
    rw [hnget, huget] at hchain
    exact hchain hgoto
  obtain ⟨x, hx, htarget⟩ := exists_kept_jump hn hi hv hcode hjump
  obtain ⟨k, z, _, hkrank, hz, hresolve⟩ := exists_sent_forward hn hj hw
  obtain rfl := eq_of_rank_eq hz hy (hkrank.trans hrank)
  cases hz.symm.trans hy
  refine List.mem_map.2 ⟨redirect (sentOf code) x, List.mem_map_of_mem hx, ?_⟩
  rw [target?_redirect, htarget, Option.map_some, hresolve]

theorem isGoto_redirect (sent : OrderedMap Address Address) (i : Instruction) :
    (redirect sent i).isGoto = i.isGoto := by
  unfold redirect
  split
  · rfl
  · cases i <;> rfl

/-- **Dropping redundant gotos makes nothing unreachable.** Behind a kept goto there may be one that
repeats it; then what counts is what comes after the two. -/
theorem entered_tidy (hn : (addresses code).Nodup) (he : Entered code) :
    Entered (tidy (sentOf code) code) := by
  refine List.isChain_iff_getElem.2 fun q hq hgoto => ?_
  obtain ⟨x, hx⟩ : ∃ x, (tidy (sentOf code) code)[q]? = some x :=
    ⟨_, List.getElem?_eq_getElem (Nat.lt_of_succ_lt hq)⟩
  obtain ⟨y, hy⟩ : ∃ y, (tidy (sentOf code) code)[q + 1]? = some y :=
    ⟨_, List.getElem?_eq_getElem hq⟩
  rw [(List.getElem?_eq_some_iff.1 hx).2] at hgoto
  rw [(List.getElem?_eq_some_iff.1 hy).2]
  rw [tidy_eq_map, List.getElem?_map] at hx hy
  obtain ⟨i, hi, rfl⟩ := Option.map_eq_some_iff.1 hx
  obtain ⟨j, hj, rfl⟩ := Option.map_eq_some_iff.1 hy
  obtain ⟨n, hn', rfl⟩ := exists_rank hi
  obtain ⟨m, hm, hrank⟩ := exists_rank hj
  rw [isGoto_redirect] at hgoto
  rw [address_redirect]
  have hlt : n < m := Nat.lt_of_not_le fun hle => by
    have : rank (judge none none code) m ≤ rank (judge none none code) n := rank_mono hle
    omega
  have hlength : m < code.length := (List.getElem?_eq_some_iff.1 (getElem?_of_judge hm)).1
  have hbetween : ∀ u, n < u → u ≤ m →
      ∃ z v, (judge none none code)[u]? = some (z, v) ∧
        rank (judge none none code) u = rank (judge none none code) m := by
    intro u hnu hum
    obtain ⟨v, hv⟩ := exists_judge (List.getElem?_eq_getElem (Nat.lt_of_le_of_lt hum hlength))
    exact ⟨_, v, hv, rank_between hn' hrank hnu hum⟩
  obtain ⟨z, v, hz, hzrank⟩ := hbetween (n + 1) (by omega) (by omega)
  by_cases hv : ∃ k, v = .repeated k
  · obtain ⟨k, rfl⟩ := hv
    have hnext : n + 1 < m := by
      refine Nat.lt_of_le_of_ne hlt ?_
      rintro rfl
      cases hz.symm.trans hm
    obtain ⟨z', v', hz', hzrank'⟩ := hbetween (n + 2) (by omega) (by omega)
    obtain ⟨_, t, _, hzgoto, _⟩ := twin_of_repeated hn hz
    refine exists_jump_tidy hn he hz (by rw [hzgoto]; rfl) (by simp) rfl hz' ?_ hm hzrank'
    -- A goto repeats one that is kept, so not another one that repeats.
    rintro k' rfl
    obtain ⟨m', _, hm', _, htwin⟩ := twin_of_repeated hn hz'
    obtain rfl : m' = n + 1 := by omega
    cases htwin.symm.trans hz
  · exact exists_jump_tidy hn he hn' hgoto (by simp) rfl hz (fun k hk => hv ⟨k, hk⟩) hm hzrank

end Redirections

theorem entered_dropRedundantGotos {p : Program} (hp : p.Sound) (he : Entered p.code) :
    Entered p.dropRedundantGotos.program.code := by
  rcases dropRedundantGotos_cases p with hcase | ⟨hcase, _⟩
  · rwa [hcase]
  · rw [hcase]
    exact entered_tidy hp.closed.nodup he

/-! ## Normal form -/

/-- Nothing crosses in self-contained code. -/
theorem selfContain_of_selfContained {p : Program} (hp : p.Sound) (h : SelfContained p.code) :
    p.selfContain.result = .ok false := by
  have hnone : p.crossing? = .ok none := by
    cases hc : p.crossing? with
    | error e => exact absurd hc (crossingFrom_ne_error hp.closed (List.Subset.refl _))
    | ok found =>
      cases found with
      | none => rfl
      | some c =>
        obtain ⟨_, hlt, _⟩ := crossingFrom_eq_some p.code (by simp) (Nat.zero_add _) hc
        refine absurd ?_ ((crosses_of_crossing? hp.closed.nodup hc).not_contained hlt)
        exact ⟨fun _ hskip => h.forward hskip, fun hij _ hskip hskip' => h.nested hskip hskip' hij⟩
  rw [selfContain, hnone]

/-- What a pass before the last establishes, the passes after it keep. -/
theorem unchanged_normalize {p : Program} {selfContained : Bool} (hp : p.Sound)
    (h : (p.normalize selfContained).result = .ok ()) {pass : Pass}
    (hpass : pass = .selfContained → selfContained = true) :
    (pass.run (p.normalize selfContained).program).result = .ok false := by
  have hsound := (refined_normalize hp h).2
  cases pass with
  | selfContained =>
    obtain rfl := hpass rfl
    exact selfContain_of_selfContained hsound (selfContained_normalize hp h)
  | unreachable =>
    refine (dropUnreachable_unchanged_iff hsound).2 ?_
    unfold normalize at h ⊢
    obtain ⟨n₁, h₁, h, hp₁⟩ := Outcome.andThen_eq_ok h
    obtain ⟨n₂, h₂, h, hp₂⟩ := Outcome.andThen_eq_ok h
    obtain ⟨n₃, h₃, h, hp₃⟩ := Outcome.andThen_eq_ok h
    rw [hp₁, hp₂, hp₃]
    have hs₁ := (Pass.refined_settle hp h₁).2
    have he₁ := (dropUnreachable_unchanged_iff hs₁).1 (Pass.run_settle h₁)
    have htidy : ∀ q : Program, q.Sound → Entered q.code →
        (Pass.redundantGotos.run q).result = .ok true →
        Entered (Pass.redundantGotos.run q).program.code :=
      fun q hq hI _ => entered_dropRedundantGotos hq hI
    cases selfContained with
    | false => exact Pass.settle_invariant htidy hs₁ he₁ h₃
    | true =>
      have hdetour : ∀ q : Program, q.Sound → Entered q.code →
          (Pass.selfContained.run q).result = .ok true →
          Entered (Pass.selfContained.run q).program.code :=
        fun q hq hI hrun => entered_selfContain hq hI hrun
      exact Pass.settle_invariant htidy (Pass.refined_settle hs₁ h₂).2
        (Pass.settle_invariant hdetour hs₁ he₁ h₂) h₃
  | redundantGotos =>
    unfold normalize at h ⊢
    obtain ⟨n₁, h₁, h, hp₁⟩ := Outcome.andThen_eq_ok h
    obtain ⟨n₂, h₂, h, hp₂⟩ := Outcome.andThen_eq_ok h
    obtain ⟨n₃, h₃, h, hp₃⟩ := Outcome.andThen_eq_ok h
    rw [hp₁, hp₂, hp₃]
    exact Pass.run_settle h₃

/-- A program in which no pass finds anything to change is its own normal form. -/
theorem normalize_of_unchanged {p : Program} {selfContained : Bool}
    (h : ∀ pass : Pass, (pass = .selfContained → selfContained = true) →
      (pass.run p).result = .ok false) :
    (p.normalize selfContained).result = .ok () ∧ (p.normalize selfContained).program = p := by
  have hfixed : ∀ pass : Pass, (pass = .selfContained → selfContained = true) →
      (pass.toFixpoint pass.name p).program = p ∧ (pass.toFixpoint pass.name p).result = .ok 0 :=
    fun pass hpass => Pass.settle_of_unchanged (h pass hpass)
  obtain ⟨hp₁, h₁⟩ := hfixed .unreachable (by simp)
  obtain ⟨hp₃, h₃⟩ := hfixed .redundantGotos (by simp)
  cases selfContained with
  | false => simp [normalize, Outcome.andThen, Outcome.after, hp₁, h₁, hp₃, h₃]
  | true =>
    obtain ⟨hp₂, h₂⟩ := hfixed .selfContained (by simp)
    simp [normalize, Outcome.andThen, Outcome.after, hp₁, h₁, hp₂, h₂, hp₃, h₃]

/-- **Normal form is final.** On a program that has been brought into normal form every pass that
was run reports no change and leaves the program as it is, and bringing it into normal form once more
gives the same program, with the same code, labels and pool. -/
theorem normalize_idempotent (code : List Instruction) (labels : LabelTable) (p : Program)
    (selfContained : Bool) (hp : ofCode code labels = .ok p)
    (h : (p.normalize selfContained).result = .ok ()) :
    (∀ pass : Pass, (pass = .selfContained → selfContained = true) →
      (pass.run (p.normalize selfContained).program).result = .ok false ∧
        (pass.run (p.normalize selfContained).program).program =
          (p.normalize selfContained).program) ∧
    ((p.normalize selfContained).program.normalize selfContained).result = .ok () ∧
      ((p.normalize selfContained).program.normalize selfContained).program =
        (p.normalize selfContained).program := by
  have hunchanged : ∀ pass : Pass, (pass = .selfContained → selfContained = true) →
      (pass.run (p.normalize selfContained).program).result = .ok false :=
    fun pass hpass => unchanged_normalize (sound_ofCode hp).1 h hpass
  refine ⟨fun pass hpass => ?_, normalize_of_unchanged hunchanged⟩
  exact ⟨hunchanged pass hpass, Pass.program_of_unchanged (hunchanged pass hpass)⟩

/-- A program with something to do for every pass: the command at 5 is unreachable, without it the
goto at 4 leads to what follows, and the condition at 1 skips back out of the region of the other. -/
def untidyLoop : List Instruction :=
  [.condition 0 [.test ⟨7, [5], false⟩] (some 3), .condition 1 [.test ⟨7, [6], true⟩] (some 0),
    .goto 2 3, .command 3 ⟨12, [4]⟩, .goto 4 6, .command 5 ⟨12, [5]⟩, .command 6 ⟨12, [6]⟩]

theorem normalize_idempotent_untidyLoop :
    ∃ p, ofCode untidyLoop ∅ = .ok p ∧ (p.normalize true).result = .ok () ∧
      (p.normalize true).program.code =
        [.condition 0 [.test ⟨7, [5], false⟩] (some 3),
          .condition 1 [.test ⟨7, [6], true⟩] (some 7), .goto 2 3, .goto 7 0,
          .command 3 ⟨12, [4]⟩, .command 6 ⟨12, [6]⟩] ∧
      (∀ pass : Pass, (pass.run (p.normalize true).program).result = .ok false) ∧
      ((p.normalize true).program.normalize true).program = (p.normalize true).program := by
  have hrun : (ofCode untidyLoop ∅ >>= fun p =>
      p.dropUnreachable.program.relabel >>= fun q =>
      q.selfContain.program.relabel >>= fun r =>
      r.dropRedundantGotos.program.relabel.map fun s =>
        (p.dropUnreachable.result, q.dropUnreachable.result, q.selfContain.result,
          r.selfContain.result, r.dropRedundantGotos.result, s.dropRedundantGotos.result, s.code)) =
      .ok (.ok true, .ok false, .ok true, .ok false, .ok true, .ok false,
        [.condition 0 [.test ⟨7, [5], false⟩] (some 3),
          .condition 1 [.test ⟨7, [6], true⟩] (some 7), .goto 2 3, .goto 7 0,
          .command 3 ⟨12, [4]⟩, .command 6 ⟨12, [6]⟩]) := by cbv
  obtain ⟨p, hp, hrun⟩ := Result.bind_eq_ok.1 hrun
  obtain ⟨q, hq, hrun⟩ := Result.bind_eq_ok.1 hrun
  obtain ⟨r, hr, hrun⟩ := Result.bind_eq_ok.1 hrun
  obtain ⟨s, hs, hrun⟩ := Result.map_eq_ok.1 hrun
  simp only [Prod.mk.injEq] at hrun
  obtain ⟨hdrop, hdropped, hdetour, hcontained, htidy, htidied, hcode⟩ := hrun
  obtain ⟨hq', hfirst⟩ := Pass.toFixpoint_once .unreachable Pass.unreachable.name hdrop hq hdropped
  obtain ⟨hr', hsecond⟩ :=
    Pass.toFixpoint_once .selfContained Pass.selfContained.name hdetour hr hcontained
  obtain ⟨hs', hthird⟩ :=
    Pass.toFixpoint_once .redundantGotos Pass.redundantGotos.name htidy hs htidied
  subst hq' hr'
  obtain ⟨hok, hnormal⟩ := normalize_of_ok hfirst hsecond hthird
  obtain ⟨hpasses, _, hagain⟩ := normalize_idempotent untidyLoop ∅ p true hp hok
  refine ⟨p, hp, hok, ?_, fun pass => (hpasses pass fun _ => rfl).1, hagain⟩
  rw [hnormal, hs', hcode]

end Program
end AdventureLogic
