import AdventureLogic.Proofs.Bytecode.Decode
import AdventureLogic.Proofs.Program.Labels

/-!
# Two ways to the same labels

Labels are collected from decoded code in one way and computed for a program in
another. Collecting sorts all jumps by target and source, and numbers a target
when it comes up for the first time; a program puts the jumps into groups, sorts
the groups and looks for numbers that no name uses. For code whose addresses
increase and whose jumps lead to its instructions the two label the same
targets in the same order, with the same references. Both number them from 1 on
(`Program.numberedLabels`), but the numbers of a program are those of a signed
32-bit word. So the two tables are the same as long as there are fewer than
2 ^ 31 labels, which is so for all code that is decoded.

For the collected labels this rests on what sorting does to the jumps: it puts
those to one target together, in code order, and the targets in code order too
(`LabelTable.mergeSort_jumps`).

Key definition: `Program.numberedLabels`. Key theorems:
`Program.entries_labelsOf_empty`, `LabelTable.mergeSort_jumps`,
`LabelTable.entries_ofInstructions`, `Program.labellers_agree`.
-/

namespace AdventureLogic

open Program (addresses references)

namespace Program

/-- The labels of code without names: the `n`-th target in code order has the name of `number n`. -/
def numberedLabels (number : Nat → Int) (code : List Instruction) : List (Address × Label) :=
  ((targetsOf code).zipIdx 1).map fun e =>
    (e.1, ⟨e.1, Label.numbered (number e.2), references code e.1⟩)

/-- The number of the `n`-th label that a program gives a name. -/
def wordNumber (n : Nat) : Int := (Int32.ofNat n).toInt

section Numbers

variable (number : Nat → Int) (code : List Instruction)

theorem keys_numberedLabels : (numberedLabels number code).map Prod.fst = targetsOf code := by
  rw [numberedLabels, List.map_map]
  exact List.zipIdx_map_fst 1 _

theorem length_numberedLabels : (numberedLabels number code).length = (targetsOf code).length := by
  rw [numberedLabels, List.length_map, List.length_zipIdx]

theorem names_numberedLabels : ((numberedLabels number code).map Prod.snd).map Label.name =
    (List.range' 1 (targetsOf code).length).map fun n => Label.numbered (number n) := by
  rw [numberedLabels, ← List.zipIdx_map_snd, List.map_map, List.map_map, List.map_map]
  rfl

theorem references_numberedLabels :
    ((numberedLabels number code).map Prod.snd).map Label.references =
      (targetsOf code).map (references code) := by
  rw [← List.zipIdx_map_fst 1 (targetsOf code), numberedLabels, List.map_map, List.map_map,
    List.map_map]
  rfl

/-- Two ways to number give the same labels exactly if they give the targets the same numbers. -/
theorem numberedLabels_eq_iff {number' : Nat → Int} :
    numberedLabels number code = numberedLabels number' code ↔
      ∀ n, 0 < n → n ≤ (targetsOf code).length → number n = number' n := by
  constructor
  · intro h n hpos hn
    have hnames := names_numberedLabels number code
    rw [h, names_numberedLabels, List.map_inj_left] at hnames
    exact (Label.numbered_inj (hnames n (List.mem_range'_1.2 (by omega)))).symm
  · intro h
    refine List.map_congr_left fun e he => ?_
    obtain ⟨hpos, hlt, _⟩ := List.mem_zipIdx he
    rw [h e.2 hpos (by omega)]

end Numbers

/-- Numbers of a word are as they should be as long as there are fewer than 2 ^ 31. -/
theorem numberedLabels_wordNumber_iff {code : List Instruction} :
    numberedLabels wordNumber code = numberedLabels (fun n => n) code ↔
      (targetsOf code).length < 2 ^ 31 := by
  rw [numberedLabels_eq_iff]
  constructor
  · intro h
    by_contra hlarge
    exact absurd (h (2 ^ 31) (by decide) (by omega)) (by decide)
  · exact fun hsmall n _ hn => Int32.toInt_ofNat_of_lt (by omega)

/-- The instructions that jump to an address. -/
theorem mem_references {code : List Instruction} {a s : Address} :
    s ∈ references code a ↔ ∃ i ∈ code, i.target? = some a ∧ i.address = s := by
  simp [references, addresses, and_assoc]

theorem references_ne_nil {code : List Instruction} {a : Address} (h : a ∈ targetsOf code) :
    references code a ≠ [] := by
  obtain ⟨i, hi, ht⟩ := List.mem_map.1 (mem_targetsOf.1 h).2
  exact List.ne_nil_of_mem (mem_references.2 ⟨i, hi, ht, rfl⟩)

/-! ## Computed labels -/

/-- Without old names every group gets the next number, as long as a word has one. -/
theorem labelGroups_empty {groups : List (Address × Array Address)} {used : NameSet} {k : Nat}
    (hused : ∀ x, .of x ∈ used → ∃ j, 0 < j ∧ j ≤ k ∧ x = Label.numbered (wordNumber j))
    (hroom : k + groups.length ≤ 2 ^ 32) :
    labelGroups ∅ used (Int32.ofNat k) groups = (groups.zipIdx (k + 1)).map fun e =>
      (e.1.1, ⟨e.1.1, Label.numbered (wordNumber e.2), e.1.2.toList⟩) := by
  induction groups generalizing used k with
  | nil => rfl
  | cons g rest ih =>
    rw [List.length_cons] at hroom
    have hnew : .of (Label.numbered (wordNumber (k + 1))) ∉ used := by
      intro hmem
      obtain ⟨j, hj, hjk, he⟩ := hused _ hmem
      have hsame := Int32.toInt_inj.1 (Label.numbered_inj he)
      exact add_ofNat_succ_ne hj hjk (by omega) (congrArg (0 + ·) hsame)
    have hnext : nextNumber used (Int32.ofNat k) = Int32.ofNat (k + 1) := by
      rw [nextNumber_of_notMem (Int32.ofNat_add k 1 ▸ hnew)]
      exact (Int32.ofNat_add k 1).symm
    rw [labelGroups, OrderedMap.get?_empty_map]
    dsimp only
    rw [hnext, ih (fun x hx => ?_) (by omega), List.zipIdx_cons, List.map_cons]
    · rfl
    · rcases NameSet.mem_add.1 hx with rfl | hx
      · exact ⟨k + 1, by omega, Nat.le_refl _, rfl⟩
      · obtain ⟨j, hj, hjk, he⟩ := hused x hx
        exact ⟨j, hj, by omega, he⟩

/-- **Labels that are computed without old names are numbered in code order.** -/
theorem entries_labelsOf_empty {code : List Instruction}
    {groups : OrderedMap Address (Array Address)} (hn : (addresses code).Nodup)
    (hgroups : groupJumps (positionsOf code) code = .ok groups) :
    (labelsOf ∅ (sortGroups (positionsOf code) groups)).entries =
      numberedLabels wordNumber code := by
  have hkept : keptNames ∅ (sortGroups (positionsOf code) groups) = [] := by
    simp [keptNames]
  have hlength := length_le_of_nodup_keys (nodup_keys_sortGroups (positionsOf code) groups)
  have hstart : (0 : Int32) = Int32.ofNat 0 := rfl
  rw [entries_labelsOf, hkept, hstart,
    labelGroups_empty (fun x hx => absurd (NameSet.mem_ofNames.1 hx) List.not_mem_nil) (by omega),
    sortGroups_eq hn (exists_groupJumps_iff.1 ⟨groups, hgroups⟩) (grouped_groupJumps hgroups),
    List.zipIdx_map, List.map_map]
  rfl

end Program

/-! ## Collected labels -/

namespace LabelTable

open Program (targetsOf numberedLabels mem_references references_ne_nil mem_targetsOf)

theorem jumpLE_iff {p q : Address × Address} :
    jumpLE p q = true ↔
      p.1.toNat < q.1.toNat ∨ p.1.toNat = q.1.toNat ∧ p.2.toNat ≤ q.2.toNat := by
  simp only [jumpLE, Bool.or_eq_true, Bool.and_eq_true, decide_eq_true_eq, beq_iff_eq,
    UInt32.lt_iff_toNat_lt, UInt32.le_iff_toNat_le, UInt32.toNat_inj]

theorem jumpLE_trans (p q r : Address × Address) (hpq : jumpLE p q = true)
    (hqr : jumpLE q r = true) : jumpLE p r = true := by
  rw [jumpLE_iff] at *
  omega

theorem jumpLE_total (p q : Address × Address) : (jumpLE p q || jumpLE q p) = true := by
  rw [Bool.or_eq_true, jumpLE_iff, jumpLE_iff]
  omega

theorem jumpLE_antisymm {p q : Address × Address} (hpq : jumpLE p q = true)
    (hqp : jumpLE q p = true) : p = q := by
  rw [jumpLE_iff] at hpq hqp
  exact Prod.ext (UInt32.toNat_inj.1 (by omega)) (UInt32.toNat_inj.1 (by omega))

/-- The jumps in the order of their targets, those to one target in code order. -/
def jumpsByTarget (code : List Instruction) : List (Address × Address) :=
  (targetsOf code).flatMap fun t => (references code t).map fun s => (t, s)

variable {code : List Instruction}

theorem mem_jumps {t s : Address} : (t, s) ∈ jumps code ↔ s ∈ references code t := by
  rw [jumps, List.mem_filterMap, mem_references]
  refine exists_congr fun i => and_congr_right fun _ => ?_
  rw [Option.map_eq_some_iff]
  constructor
  · rintro ⟨u, hu, he⟩
    cases he
    exact ⟨hu, rfl⟩
  · rintro ⟨ht, rfl⟩
    exact ⟨t, ht, rfl⟩

theorem nodup_jumps (hn : (addresses code).Nodup) : (jumps code).Nodup := by
  rw [addresses, List.Nodup, List.pairwise_map] at hn
  refine List.Pairwise.filterMap _ (fun i j hne p hp q hq hpq => hne ?_) hn
  obtain ⟨t, _, rfl⟩ := Option.map_eq_some_iff.1 hp
  obtain ⟨u, _, rfl⟩ := Option.map_eq_some_iff.1 hq
  exact congrArg Prod.snd hpq

theorem mem_jumpsByTarget (htarget : ∀ i ∈ code, ∀ t, i.target? = some t → t ∈ addresses code)
    {t s : Address} : (t, s) ∈ jumpsByTarget code ↔ s ∈ references code t := by
  rw [jumpsByTarget, List.mem_flatMap]
  constructor
  · rintro ⟨u, _, h⟩
    obtain ⟨r, hr, he⟩ := List.mem_map.1 h
    cases he
    exact hr
  · intro hs
    obtain ⟨i, hi, ht, _⟩ := mem_references.1 hs
    exact ⟨t, mem_targetsOf.2 ⟨htarget i hi t ht, List.mem_map.2 ⟨i, hi, ht⟩⟩,
      List.mem_map.2 ⟨s, hs, rfl⟩⟩

/-- In code with increasing addresses they increase, first by target and then by source. -/
theorem pairwise_jumpsByTarget (hincreasing : (addresses code).Pairwise (· < ·)) :
    (jumpsByTarget code).Pairwise fun p q => p.1 < q.1 ∨ p.1 = q.1 ∧ p.2 < q.2 := by
  refine List.pairwise_flatMap.2 ⟨fun t _ => ?_, ?_⟩
  · rw [List.pairwise_map]
    exact (hincreasing.sublist (List.filter_sublist.map _)).imp fun hlt => .inr ⟨rfl, hlt⟩
  · refine (hincreasing.sublist List.filter_sublist).imp fun hlt p hp q hq => .inl ?_
    obtain ⟨_, _, rfl⟩ := List.mem_map.1 hp
    obtain ⟨_, _, rfl⟩ := List.mem_map.1 hq
    exact hlt

/-- **Sorting puts the jumps to one target together,** the targets and the jumps to each of them in
code order. -/
theorem mergeSort_jumps (hincreasing : (addresses code).Pairwise (· < ·))
    (htarget : ∀ i ∈ code, ∀ t, i.target? = some t → t ∈ addresses code) :
    (jumps code).mergeSort jumpLE = jumpsByTarget code := by
  have hsorted := pairwise_jumpsByTarget hincreasing
  have hnodup : (jumpsByTarget code).Nodup := by
    refine hsorted.imp fun hlt heq => ?_
    subst heq
    exact hlt.elim (UInt32.lt_irrefl _) fun h => UInt32.lt_irrefl _ h.2
  have hperm : (jumps code).Perm (jumpsByTarget code) := by
    rw [List.perm_ext_iff_of_nodup (nodup_jumps (hincreasing.imp UInt32.ne_of_lt)) hnodup]
    rintro ⟨t, s⟩
    rw [mem_jumps, mem_jumpsByTarget htarget]
  have hle : (jumpsByTarget code).Pairwise fun p q => jumpLE p q = true := by
    refine hsorted.imp fun h => ?_
    rw [jumpLE_iff, UInt32.toNat_inj, ← UInt32.lt_iff_toNat_lt]
    exact h.imp_right fun h => ⟨h.1, Nat.le_of_lt (UInt32.lt_iff_toNat_lt.1 h.2)⟩
  exact ((List.mergeSort_perm _ _).trans hperm).eq_of_pairwise
    (fun _ _ _ _ hpq hqp => jumpLE_antisymm hpq hqp)
    (List.pairwise_mergeSort jumpLE_trans jumpLE_total _) hle

/-! ### Adding the jumps of a group -/

theorem addJump_new {labels : LabelTable} {t : Address} (h : labels.contains t = false)
    (s : Address) :
    (addJump labels (t, s)).entries =
      labels.entries ++ [(t, ⟨t, Label.numbered (labels.size + 1 : Nat), [s]⟩)] :=
  OrderedMap.entries_modify_last (OrderedMap.entries_insertIfNew h _) _

theorem addJump_last {labels : LabelTable} {before : List (Address × Label)} {t : Address}
    {name : String} {refs : List Address} (h : labels.entries = before ++ [(t, ⟨t, name, refs⟩)])
    (s : Address) : (addJump labels (t, s)).entries = before ++ [(t, ⟨t, name, refs ++ [s]⟩)] := by
  have hcontains : labels.contains t = true := by
    rw [OrderedMap.contains_iff_mem_keys, OrderedMap.keys, h]
    simp
  rw [addJump, OrderedMap.insertIfNew_of_contains hcontains]
  exact OrderedMap.entries_modify_last h _

theorem foldl_addJump_last {before : List (Address × Label)} {t : Address} {name : String} :
    ∀ (sources refs : List Address) {labels : LabelTable},
      labels.entries = before ++ [(t, ⟨t, name, refs⟩)] →
      ((sources.map fun s => (t, s)).foldl addJump labels).entries =
        before ++ [(t, ⟨t, name, refs ++ sources⟩)]
  | [], refs, labels, h => by simpa using h
  | s :: sources, refs, labels, h => by
    rw [List.map_cons, List.foldl_cons, foldl_addJump_last sources _ (addJump_last h s),
      List.append_assoc, List.singleton_append]

/-- The jumps to a new target give it the next number. -/
theorem foldl_addJump_new {labels : LabelTable} {t : Address} (h : labels.contains t = false)
    {sources : List Address} (hsources : sources ≠ []) :
    ((sources.map fun s => (t, s)).foldl addJump labels).entries =
      labels.entries ++ [(t, ⟨t, Label.numbered (labels.size + 1 : Nat), sources⟩)] := by
  obtain ⟨s, rest, rfl⟩ := List.exists_cons_of_ne_nil hsources
  rw [List.map_cons, List.foldl_cons, foldl_addJump_last rest [s] (addJump_new h s),
    List.singleton_append]

/-- Groups of jumps to different targets number the targets in their order. -/
theorem foldl_addJump_groups (sources : Address → List Address) :
    ∀ (targets : List Address) (labels : LabelTable), targets.Nodup →
      (∀ t ∈ targets, labels.contains t = false) → (∀ t ∈ targets, sources t ≠ []) →
      ((targets.flatMap fun t => (sources t).map fun s => (t, s)).foldl addJump labels).entries =
        labels.entries ++ (targets.zipIdx (labels.size + 1)).map fun e =>
          (e.1, ⟨e.1, Label.numbered e.2, sources e.1⟩)
  | [], labels, _, _, _ => by simp
  | t :: targets, labels, hnodup, hnew, hsources => by
    obtain ⟨ht, hrest⟩ := List.nodup_cons.1 hnodup
    have hgroup := foldl_addJump_new (hnew t List.mem_cons_self) (hsources t List.mem_cons_self)
    rw [List.flatMap_cons, List.foldl_append]
    generalize ((sources t).map fun s => (t, s)).foldl addJump labels = added at hgroup
    have hsize : added.size = labels.size + 1 := by
      rw [OrderedMap.size_eq_length_entries, hgroup, List.length_append,
        ← OrderedMap.size_eq_length_entries, List.length_singleton]
    have hadded : ∀ u ∈ targets, added.contains u = false := by
      intro u hu
      have hne : u ≠ t := fun he => ht (he ▸ hu)
      have hold := hnew u (List.mem_cons_of_mem t hu)
      rw [← Bool.not_eq_true, OrderedMap.contains_iff_mem_keys] at hold ⊢
      rw [OrderedMap.keys, hgroup, List.map_append, List.mem_append, not_or]
      exact ⟨hold, by simpa using hne⟩
    rw [foldl_addJump_groups sources targets added hrest hadded
      fun u hu => hsources u (List.mem_cons_of_mem t hu), hgroup, hsize, List.zipIdx_cons,
      List.map_cons, List.append_assoc, List.singleton_append]

/-- **Collected labels are numbered in code order,** if addresses increase and jumps lead to
instructions. -/
theorem entries_ofInstructions (hincreasing : (addresses code).Pairwise (· < ·))
    (htarget : ∀ i ∈ code, ∀ t, i.target? = some t → t ∈ addresses code) :
    (ofInstructions code).entries = numberedLabels (fun n => n) code := by
  have hnodup := Program.nodup_targetsOf (hincreasing.imp UInt32.ne_of_lt)
  rw [ofInstructions, mergeSort_jumps hincreasing htarget, jumpsByTarget,
    foldl_addJump_groups _ _ _ hnodup (fun _ _ => rfl) fun _ ht => references_ne_nil ht]
  rfl

/-! ### How many labels there are -/

theorem size_addJump_le (labels : LabelTable) (jump : Address × Address) :
    (addJump labels jump).size ≤ labels.size + 1 := by
  rw [addJump, OrderedMap.size_eq_length_entries, OrderedMap.entries_modify, List.length_map,
    OrderedMap.size_eq_length_entries]
  cases hc : labels.contains jump.1 with
  | true =>
    rw [OrderedMap.insertIfNew_of_contains hc]
    omega
  | false =>
    rw [OrderedMap.entries_insertIfNew hc, List.length_append, List.length_singleton]

theorem size_foldl_addJump_le : ∀ (js : List (Address × Address)) (labels : LabelTable),
    (js.foldl addJump labels).size ≤ labels.size + js.length
  | [], labels => Nat.le_refl _
  | j :: js, labels => by
    have hfirst := size_addJump_le labels j
    have hrest := size_foldl_addJump_le js (addJump labels j)
    rw [List.foldl_cons, List.length_cons]
    omega

/-- There are no more labels than jumps. -/
theorem size_ofInstructions_le (code : List Instruction) :
    (ofInstructions code).size ≤ (jumps code).length := by
  have h := size_foldl_addJump_le ((jumps code).mergeSort jumpLE) ∅
  rw [List.length_mergeSort] at h
  exact h.trans (Nat.le_of_eq (Nat.zero_add _))

end LabelTable

namespace Bytecode

/-- A jump is read from three bytes or more. -/
theorem length_jump_readInstruction {set : CommandSet} {size : Nat} {c d : Cursor} {i : Instruction}
    (h : readInstruction set size c = .ok (i, d)) (hi : i.target?.isSome) :
    d.rest.length + 3 ≤ c.rest.length := by
  obtain ⟨⟨b, next⟩, hb, h⟩ := Result.bind_eq_ok.1 h
  have hfirst := Cursor.length_byte hb
  dsimp only at h
  split at h
  · obtain ⟨⟨clauses, after⟩, hclauses, h⟩ := Result.bind_eq_ok.1 h
    obtain ⟨⟨skip, last⟩, hskip, h⟩ := Result.bind_eq_ok.1 h
    have := length_readClauses set hclauses
    have := Cursor.length_jump hskip
    cases h
    dsimp only at *
    omega
  · split at h
    · obtain ⟨⟨target, last⟩, htarget, h⟩ := Result.bind_eq_ok.1 h
      have := Cursor.length_jump htarget
      cases h
      dsimp only at *
      omega
    · split at h
      · cases h
      · obtain ⟨⟨args, last⟩, _, h⟩ := Result.bind_eq_ok.1 h
        cases h
        cases hi

theorem length_jumps_decodeFrom {set : CommandSet} {size : Nat} {c : Cursor}
    {code : List Instruction} (h : (decodeFrom set size c).result = .ok code) :
    3 * (LabelTable.jumps code).length ≤ c.rest.length := by
  fun_induction decodeFrom set size c generalizing code with
  | case1 =>
    cases h
    exact Nat.zero_le _
  | case2 => cases h
  | case3 c hne i next hread ih =>
    obtain ⟨_, _, h⟩ := Logged.result_bind_eq_ok.1 h
    obtain ⟨rest, hrest, rfl⟩ := Result.map_eq_ok.1 h
    have hlater := ih hrest
    have hlt := length_readInstruction set hread
    cases ht : i.target? with
    | none =>
      rw [LabelTable.jumps, List.filterMap_cons_none (by rw [ht]; rfl), ← LabelTable.jumps]
      omega
    | some t =>
      have hjump := length_jump_readInstruction hread (by rw [ht]; rfl)
      rw [LabelTable.jumps, List.filterMap_cons_some (by rw [ht]; rfl), ← LabelTable.jumps,
        List.length_cons]
      omega

/-- **Decoded code has fewer labels than there are positive numbers,** if its bytes can be
addressed. -/
theorem size_labels_decode {set : CommandSet} {bytes : List UInt8} {code : List Instruction}
    (h : (decode set bytes).result = .ok code) (hlen : bytes.length ≤ 2 ^ 32) :
    (LabelTable.ofInstructions code).size < 2 ^ 31 := by
  obtain ⟨instructions, hdecode, h⟩ := Logged.result_bind_eq_ok.1 h
  obtain ⟨_, _, h⟩ := Logged.result_bind_eq_ok.1 h
  cases h
  have hjumps : 3 * (LabelTable.jumps code).length ≤ bytes.length := length_jumps_decodeFrom hdecode
  have hsize := LabelTable.size_ofInstructions_le code
  omega

end Bytecode

namespace Program

/-- A program can be made from closed code without labels given. The labels are numbered in code
order, with the numbers of a word. -/
theorem exists_ofCode_empty {code : List Instruction} (hn : (addresses code).Nodup)
    (htarget : ∀ i ∈ code, ∀ t, i.target? = some t → t ∈ addresses code) :
    ∃ p, ofCode code ∅ = .ok p ∧ p.code = code ∧
      p.labels.entries = numberedLabels wordNumber code := by
  obtain ⟨pool, hpool⟩ := AddressPool.exists_ofInstructions_iff.2 hn
  obtain ⟨groups, hgroups⟩ := exists_groupJumps_iff.2 htarget
  have hrelabel : relabel ⟨code, ∅, pool⟩ =
      .ok ⟨code, labelsOf ∅ (sortGroups (positionsOf code) groups), pool⟩ :=
    relabel_eq_ok.2 ⟨groups, hgroups, rfl⟩
  exact ⟨_, Result.bind_eq_ok.2 ⟨pool, hpool, hrelabel⟩, rfl, entries_labelsOf_empty hn hgroups⟩

/-- **The two labellers agree.** For code whose addresses increase and whose jumps all lead to
instructions, a program can be made without labels given, and its labels are those that are
collected from the code: the same addresses in the same order with the same references, and with the
names of the numbers from 1 on as long as there are fewer than 2 ^ 31 of them. Decoded code is one
whose addresses increase, and has no more labels than that. -/
theorem labellers_agree :
    (∀ code : List Instruction, (addresses code).Pairwise (· < ·) →
      (∀ i ∈ code, ∀ t, i.target? = some t → t ∈ addresses code) →
      ∃ p, ofCode code ∅ = .ok p ∧ p.code = code ∧
        p.labels.keys = (LabelTable.ofInstructions code).keys ∧
        p.labels.values.map Label.references =
          (LabelTable.ofInstructions code).values.map Label.references ∧
        (LabelTable.ofInstructions code).values.map Label.name =
          ((List.range' 1 (LabelTable.ofInstructions code).size).map fun n : Nat =>
            Label.numbered n) ∧
        (p.labels.entries = (LabelTable.ofInstructions code).entries ↔
          (LabelTable.ofInstructions code).size < 2 ^ 31)) ∧
    ∀ (set : CommandSet) (bytes : List UInt8) (code : List Instruction), bytes.length ≤ 2 ^ 32 →
      (Bytecode.decode set bytes).result = .ok code →
      (addresses code).Pairwise (· < ·) ∧ (LabelTable.ofInstructions code).size < 2 ^ 31 := by
  refine ⟨fun code hincreasing htarget => ?_, fun set bytes code hlen h =>
    ⟨Bytecode.increasing_decode h hlen, Bytecode.size_labels_decode h hlen⟩⟩
  obtain ⟨p, hp, hcode, hlabels⟩ :=
    exists_ofCode_empty (hincreasing.imp UInt32.ne_of_lt) htarget
  have hcollected := LabelTable.entries_ofInstructions hincreasing htarget
  refine ⟨p, hp, hcode, ?_, ?_, ?_, ?_⟩
  · rw [OrderedMap.keys, OrderedMap.keys, hlabels, hcollected, keys_numberedLabels,
      keys_numberedLabels]
  · rw [OrderedMap.values, OrderedMap.values, hlabels, hcollected, references_numberedLabels,
      references_numberedLabels]
  · rw [OrderedMap.values, OrderedMap.size_eq_length_entries, hcollected, names_numberedLabels,
      length_numberedLabels]
  · rw [OrderedMap.size_eq_length_entries, hlabels, hcollected, length_numberedLabels]
    exact numberedLabels_wordNumber_iff

/-- Two jumps to the end of a loop and one back to its start, which stand in the code in another
order than their targets. -/
def loopBackBytes : List UInt8 :=
  [0xFF, 7, 5, 0xFF, 5, 0, 0xFE, 2, 0, 12, 5, 0xFE, 0xF2, 0xFF, 0]

/-- What the bytes stand for. -/
def loopBack : List Instruction :=
  [.condition 0 [.test ⟨7, [5], false⟩] (some 11), .goto 6 11, .command 9 ⟨12, [5]⟩, .goto 11 0,
    .command 14 Command.ret]

theorem labellers_agree_loopBack :
    loopBackBytes.length ≤ 2 ^ 32 ∧ (Bytecode.decode {} loopBackBytes).result = .ok loopBack ∧
      (∀ i ∈ loopBack, ∀ t, i.target? = some t → t ∈ addresses loopBack) ∧
      (addresses loopBack).Pairwise (· < ·) ∧
      ∃ p, ofCode loopBack ∅ = .ok p ∧ p.code = loopBack ∧
        p.labels.entries = (LabelTable.ofInstructions loopBack).entries := by
  have hlen : loopBackBytes.length ≤ 2 ^ 32 := by decide
  have hdecode : (Bytecode.decode {} loopBackBytes).result = .ok loopBack := by decide +kernel
  have htarget : ∀ i ∈ loopBack, ∀ t, i.target? = some t → t ∈ addresses loopBack := by
    simp [loopBack, addresses, Instruction.target?, Instruction.address]
  obtain ⟨hincreasing, hsize⟩ := labellers_agree.2 {} loopBackBytes loopBack hlen hdecode
  obtain ⟨p, hp, hcode, _, _, _, hlabels⟩ := labellers_agree.1 loopBack hincreasing htarget
  exact ⟨hlen, hdecode, htarget, hincreasing, p, hp, hcode, hlabels.2 hsize⟩

example : numberedLabels wordNumber loopBack =
    [(0, ⟨0, "Label1", [11]⟩), (11, ⟨11, "Label2", [0, 6]⟩)] := by
  decide +kernel

/-- A goto to itself at each of the first `n` addresses. -/
def selfGotos (n : Nat) : List Instruction :=
  (List.range n).map fun a => .goto (UInt32.ofNat a) (UInt32.ofNat a)

theorem target?_of_mem_selfGotos {n : Nat} {i : Instruction} (h : i ∈ selfGotos n) :
    i.target? = some i.address := by
  obtain ⟨a, _, rfl⟩ := List.mem_map.1 h
  rfl

theorem target_mem_selfGotos (n : Nat) :
    ∀ i ∈ selfGotos n, ∀ t, i.target? = some t → t ∈ addresses (selfGotos n) := by
  intro i hi t ht
  rw [← Option.some.inj ((target?_of_mem_selfGotos hi).symm.trans ht)]
  exact List.mem_map_of_mem hi

theorem increasing_selfGotos {n : Nat} (h : n ≤ 2 ^ 32) :
    (addresses (selfGotos n)).Pairwise (· < ·) := by
  rw [addresses, selfGotos, List.map_map, List.pairwise_map]
  refine List.pairwise_lt_range.imp_of_mem fun {a b} ha hb hlt => ?_
  rw [List.mem_range] at ha hb
  show UInt32.ofNat a < UInt32.ofNat b
  rw [UInt32.lt_iff_toNat_lt, UInt32.toNat_ofNat', UInt32.toNat_ofNat',
    Nat.mod_eq_of_lt (by omega), Nat.mod_eq_of_lt (by omega)]
  exact hlt

theorem length_targetsOf_selfGotos (n : Nat) : (targetsOf (selfGotos n)).length = n := by
  have hall : targetsOf (selfGotos n) = addresses (selfGotos n) := by
    refine List.filter_eq_self.2 fun a ha => decide_eq_true ?_
    obtain ⟨i, hi, rfl⟩ := List.mem_map.1 ha
    exact List.mem_map.2 ⟨i, hi, target?_of_mem_selfGotos hi⟩
  rw [hall, addresses, selfGotos, List.length_map, List.length_map, List.length_range]

/-- **With 2 ^ 31 labels the two labellers no longer agree.** -/
theorem labels_selfGotos : (addresses (selfGotos (2 ^ 31))).Pairwise (· < ·) ∧
    (∀ i ∈ selfGotos (2 ^ 31), ∀ t, i.target? = some t → t ∈ addresses (selfGotos (2 ^ 31))) ∧
    ∃ p, ofCode (selfGotos (2 ^ 31)) ∅ = .ok p ∧
      p.labels.entries ≠ (LabelTable.ofInstructions (selfGotos (2 ^ 31))).entries := by
  have hincreasing := increasing_selfGotos (show 2 ^ 31 ≤ 2 ^ 32 by omega)
  have htarget := target_mem_selfGotos (2 ^ 31)
  obtain ⟨p, hp, _, hlabels⟩ := exists_ofCode_empty (hincreasing.imp UInt32.ne_of_lt) htarget
  refine ⟨hincreasing, htarget, p, hp, fun heq => ?_⟩
  rw [hlabels, LabelTable.entries_ofInstructions hincreasing htarget,
    numberedLabels_wordNumber_iff, length_targetsOf_selfGotos] at heq
  exact Nat.lt_irrefl _ heq

end Program
end AdventureLogic
