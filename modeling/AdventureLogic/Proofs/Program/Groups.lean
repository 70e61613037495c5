import Mathlib.Algebra.Group.Nat.Defs
import Mathlib.Data.List.Nodup
import Std.Data.String.ToInt
import AdventureLogic.Program.Basic
import AdventureLogic.Proofs.Behaviour.Code
import AdventureLogic.Proofs.OrderedMap

/-!
# Jumps in groups

The jumps of a code are put into groups with one target each. A group has the
instructions that jump to its target, in code order (`Grouped`), and there is a
group for every target. Sorting brings the groups into the order in which their
targets stand in the code, if every address stands there once
(`sortGroups_eq`). Groups are found as long as every target is an instruction
(`exists_groupJumps_iff`).

A number for a new label is looked for among the numbers of a 32-bit word. As
long as there are fewer names in use than numbers, one is found that none of
the names has (`numbered_nextNumber_notMem`).

Key definitions: `references`, `targetsOf`, `Grouped`. Key theorems:
`grouped_groupJumps`, `exists_groupJumps_iff`, `sortGroups_eq`,
`numbered_nextNumber_notMem`.
-/

namespace AdventureLogic

/-- Different numbers give different names. -/
theorem Label.numbered_inj {m n : Int} (h : numbered m = numbered n) : m = n :=
  Int.repr_inj.1 ((String.append_right_inj _).1 h)

namespace Program

/-- The addresses of the instructions that jump to `a`, in code order. -/
def references (code : List Instruction) (a : Address) : List Address :=
  addresses (code.filter fun i => i.target? = some a)

/-- The addresses that some instruction has and some instruction jumps to, in code order. -/
def targetsOf (code : List Instruction) : List Address :=
  (addresses code).filter fun a => some a ∈ code.map Instruction.target?

/-! ## Groups -/

/-- There is a group for each target of the code, with all jumps to it. -/
def Grouped (code : List Instruction) (groups : OrderedMap Address (Array Address)) : Prop :=
  ∀ a, groups.get? a =
    if some a ∈ code.map Instruction.target? then some (references code a).toArray else none

theorem grouped_nil : Grouped [] ∅ := fun _ => rfl

theorem references_concat (code : List Instruction) (i : Instruction) (a : Address) :
    references (code ++ [i]) a =
      references code a ++ if i.target? = some a then [i.address] else [] := by
  rw [references, references, List.filter_append, addresses, List.map_append, ← addresses]
  by_cases h : i.target? = some a <;> simp [h]

theorem references_eq_nil {code : List Instruction} {a : Address}
    (h : some a ∉ code.map Instruction.target?) : references code a = [] := by
  rw [references, List.filter_eq_nil_iff.2, addresses, List.map_nil]
  intro i hi ht
  exact h (List.mem_map.2 ⟨i, hi, by simpa using ht⟩)

/-- One more instruction goes to the group of its target. -/
theorem Grouped.fileJump {positions : NatMap Nat} {code : List Instruction} {i : Instruction}
    {groups groups' : OrderedMap Address (Array Address)} (hg : Grouped code groups)
    (h : fileJump positions groups i = .ok groups') : Grouped (code ++ [i]) groups' := by
  intro a
  simp only [references_concat, List.map_append, List.mem_append]
  cases ht : i.target? with
  | none =>
    rw [Program.fileJump, ht] at h
    cases h
    simpa [ht] using hg a
  | some t =>
    rw [Program.fileJump, ht] at h
    dsimp only at h
    split at h
    · cases h
      rw [OrderedMap.get?_modify, OrderedMap.get?_insertIfNew,
        OrderedMap.contains_eq_isSome_get?, hg]
      by_cases hta : t = a
      · subst hta
        by_cases hold : some t ∈ code.map Instruction.target?
        · simp [ht, hold, hg t]
        · simp [ht, hold, references_eq_nil hold]
      · simp [ht, hta, hg a, Ne.symm hta]
    · cases h

theorem grouped_foldlM {positions : NatMap Nat} : ∀ {rest before : List Instruction}
    {groups groups' : OrderedMap Address (Array Address)}, Grouped before groups →
      rest.foldlM (fileJump positions) groups = .ok groups' → Grouped (before ++ rest) groups'
  | [], before, groups, groups', hg, h => by
    cases h
    rwa [List.append_nil]
  | i :: rest, before, groups, groups', hg, h => by
    rw [List.foldlM_cons] at h
    obtain ⟨next, hnext, h⟩ := Result.bind_eq_ok.1 h
    rw [List.append_cons]
    exact grouped_foldlM (hg.fileJump hnext) h

/-- **The groups have all jumps,** each under its target. -/
theorem grouped_groupJumps {positions : NatMap Nat} {code : List Instruction}
    {groups : OrderedMap Address (Array Address)} (h : groupJumps positions code = .ok groups) :
    Grouped code groups :=
  grouped_foldlM grouped_nil h

theorem exists_foldlM_fileJump_iff {positions : NatMap Nat} : ∀ {code : List Instruction}
    {groups : OrderedMap Address (Array Address)},
    (∃ groups', code.foldlM (fileJump positions) groups = .ok groups') ↔
      ∀ i ∈ code, ∀ t, i.target? = some t → positions.contains t.toNat
  | [], groups => by simp [pure, Except.pure]
  | i :: rest, groups => by
    have hfirst : (∃ next, fileJump positions groups i = .ok next) ↔
        ∀ t, i.target? = some t → positions.contains t.toNat := by
      unfold fileJump
      cases i.target? with
      | none => simp
      | some t => by_cases hc : positions.contains t.toNat = true <;> simp [hc]
    rw [List.forall_mem_cons, ← hfirst, List.foldlM_cons]
    constructor
    · rintro ⟨groups', h⟩
      obtain ⟨next, hnext, h⟩ := Result.bind_eq_ok.1 h
      exact ⟨⟨next, hnext⟩, exists_foldlM_fileJump_iff.1 ⟨groups', h⟩⟩
    · rintro ⟨⟨next, hnext⟩, hrest⟩
      obtain ⟨groups', h⟩ := exists_foldlM_fileJump_iff.2 hrest
      exact ⟨groups', Result.bind_eq_ok.2 ⟨next, hnext, h⟩⟩

/-- **Jumps can be grouped exactly if they lead to instructions.** -/
theorem exists_groupJumps_iff {code : List Instruction} :
    (∃ groups, groupJumps (positionsOf code) code = .ok groups) ↔
      ∀ i ∈ code, ∀ t, i.target? = some t → t ∈ addresses code := by
  rw [groupJumps, exists_foldlM_fileJump_iff]
  simp only [contains_positionsOf, addresses]

/-! ## Sorting -/

theorem standsBefore_trans {positions : NatMap Nat} {a b c : Address}
    (hab : standsBefore positions a b = true) (hbc : standsBefore positions b c = true) :
    standsBefore positions a c = true := by
  unfold standsBefore at *
  cases ha : positions.get? a.toNat <;> cases hb : positions.get? b.toNat <;>
    cases hc : positions.get? c.toNat <;> simp_all
  exact Nat.le_trans hab hbc

theorem standsBefore_total (positions : NatMap Nat) (a b : Address) :
    (standsBefore positions a b || standsBefore positions b a) = true := by
  unfold standsBefore
  cases positions.get? a.toNat <;> cases positions.get? b.toNat <;> simp [Nat.le_total]

variable {code : List Instruction} {groups : OrderedMap Address (Array Address)}

theorem sortGroups_perm (positions : NatMap Nat) (groups : OrderedMap Address (Array Address)) :
    (sortGroups positions groups).Perm groups.entries :=
  List.mergeSort_perm _ _

theorem nodup_keys_sortGroups (positions : NatMap Nat)
    (groups : OrderedMap Address (Array Address)) :
    ((sortGroups positions groups).map Prod.fst).Nodup :=
  ((sortGroups_perm positions groups).map Prod.fst).nodup_iff.2 groups.keys_nodup

/-- There is a group for each target, with the jumps to it. -/
theorem mem_sortGroups {positions : NatMap Nat} (hg : Grouped code groups) {a : Address}
    {sources : Array Address} : (a, sources) ∈ sortGroups positions groups ↔
      some a ∈ code.map Instruction.target? ∧ (references code a).toArray = sources := by
  rw [(sortGroups_perm positions groups).mem_iff, ← OrderedMap.get?_eq_some_iff, hg]
  by_cases h : some a ∈ code.map Instruction.target? <;> simp [h]

/-- Where addresses are distinct, an address that comes later stands later. -/
theorem pairwise_standsBefore (hn : (addresses code).Nodup) :
    (addresses code).Pairwise fun a b => standsBefore (positionsOf code) a b = true := by
  have hposition : ∀ {n : Nat} {a : Address}, (addresses code)[n]? = some a →
      (positionsOf code).get? a.toNat = some n := by
    intro n a h
    rw [addresses, List.getElem?_map] at h
    rw [get?_positionsOf_eq_some_iff]
    exact ⟨h, fun m hm hm' => Nat.ne_of_lt hm (position_unique hn h hm')⟩
  rw [List.pairwise_iff_getElem]
  intro m n hm hn hlt
  rw [standsBefore, hposition (List.getElem?_eq_getElem hm),
    hposition (List.getElem?_eq_getElem hn)]
  exact decide_eq_true (Nat.le_of_lt hlt)

/-- Addresses of the code that stand before each other are the same. -/
theorem standsBefore_antisymm {a b : Address} (ha : a ∈ addresses code) (hb : b ∈ addresses code)
    (hab : standsBefore (positionsOf code) a b = true)
    (hba : standsBefore (positionsOf code) b a = true) : a = b := by
  obtain ⟨m, hm⟩ := Option.isSome_iff_exists.1 ((contains_positionsOf code a).2 ha)
  obtain ⟨n, hn⟩ := Option.isSome_iff_exists.1 ((contains_positionsOf code b).2 hb)
  rw [standsBefore, hm, hn] at hab
  rw [standsBefore, hm, hn] at hba
  have heq : m = n := Nat.le_antisymm (of_decide_eq_true hab) (of_decide_eq_true hba)
  subst heq
  have ha' := ((get?_positionsOf_eq_some_iff code a m).1 hm).1
  have hb' := ((get?_positionsOf_eq_some_iff code b m).1 hn).1
  exact Option.some.inj (ha'.symm.trans hb')

theorem mem_targetsOf {a : Address} : a ∈ targetsOf code ↔
    a ∈ addresses code ∧ some a ∈ code.map Instruction.target? := by
  rw [targetsOf, List.mem_filter, decide_eq_true_eq]

theorem nodup_targetsOf (hn : (addresses code).Nodup) : (targetsOf code).Nodup :=
  hn.sublist List.filter_sublist

/-- **Sorting brings the groups into code order,** if addresses are distinct and jumps lead to
instructions. -/
theorem sortGroups_eq (hn : (addresses code).Nodup)
    (htarget : ∀ i ∈ code, ∀ t, i.target? = some t → t ∈ addresses code)
    (hg : Grouped code groups) : sortGroups (positionsOf code) groups =
      (targetsOf code).map fun a => (a, (references code a).toArray) := by
  have hmem : ∀ g, g ∈ sortGroups (positionsOf code) groups ↔
      g ∈ (targetsOf code).map fun a => (a, (references code a).toArray) := by
    rintro ⟨a, sources⟩
    rw [mem_sortGroups hg, List.mem_map (l := targetsOf code)]
    constructor
    · rintro ⟨ha, hsources⟩
      obtain ⟨i, hi, ht⟩ := List.mem_map.1 ha
      exact ⟨a, mem_targetsOf.2 ⟨htarget i hi a ht, ha⟩, Prod.ext rfl hsources⟩
    · rintro ⟨b, hb, he⟩
      cases he
      exact ⟨(mem_targetsOf.1 hb).2, rfl⟩
  have hperm : (sortGroups (positionsOf code) groups).Perm
      ((targetsOf code).map fun a => (a, (references code a).toArray)) := by
    refine (List.perm_ext_iff_of_nodup (.of_map Prod.fst (nodup_keys_sortGroups _ _)) ?_).2 hmem
    exact (nodup_targetsOf hn).map fun a b he => congrArg Prod.fst he
  have hsorted : (sortGroups (positionsOf code) groups).Pairwise fun g h =>
      standsBefore (positionsOf code) g.1 h.1 = true := by
    apply List.pairwise_mergeSort
    · exact fun _ _ _ => standsBefore_trans
    · exact fun _ _ => standsBefore_total _ _ _
  refine hperm.eq_of_pairwise ?_ hsorted ?_
  · intro g h hgm hhm hgh hhg
    obtain ⟨a, ha, rfl⟩ := List.mem_map.1 ((hmem g).1 hgm)
    obtain ⟨b, hb, rfl⟩ := List.mem_map.1 hhm
    rw [standsBefore_antisymm (mem_targetsOf.1 ha).1 (mem_targetsOf.1 hb).1 hgh hhg]
  · rw [List.pairwise_map]
    exact (pairwise_standsBefore hn).sublist List.filter_sublist

/-! ## Labels of groups -/

theorem map_fst_labelGroups (old : LabelTable) :
    ∀ (used : NameSet) (last : Int32) (groups : List (Address × Array Address)),
      (labelGroups old used last groups).map Prod.fst = groups.map Prod.fst
  | _, _, [] => rfl
  | used, last, (a, sources) :: rest => by
    unfold labelGroups
    cases old.get? a with
    | some l => simp [map_fst_labelGroups old used last rest]
    | none => simp [map_fst_labelGroups old _ _ rest]

/-- A label has the address and the jumps of its group, and a name that it had before. -/
theorem mem_labelGroups {old : LabelTable} {a : Address} {l : Label} :
    ∀ {used : NameSet} {last : Int32} {groups : List (Address × Array Address)},
      (a, l) ∈ labelGroups old used last groups →
        l.address = a ∧ (∃ sources, (a, sources) ∈ groups ∧ l.references = sources.toList) ∧
          ∀ k, old.get? a = some k → l.name = k.name
  | _, _, [], h => absurd h List.not_mem_nil
  | used, last, (b, sources) :: rest, h => by
    have hlater : ∀ {used last}, (a, l) ∈ labelGroups old used last rest → l.address = a ∧
        (∃ s, (a, s) ∈ (b, sources) :: rest ∧ l.references = s.toList) ∧
          ∀ k, old.get? a = some k → l.name = k.name := by
      intro used last h
      obtain ⟨haddress, ⟨s, hs, hreferences⟩, hname⟩ := mem_labelGroups h
      exact ⟨haddress, ⟨s, List.mem_cons_of_mem _ hs, hreferences⟩, hname⟩
    unfold labelGroups at h
    cases hb : old.get? b with
    | some k =>
      rw [hb] at h
      rcases List.mem_cons.1 h with he | h
      · cases he
        refine ⟨rfl, ⟨sources, List.mem_cons_self, rfl⟩, fun k' hk' => ?_⟩
        rw [Option.some.inj (hb.symm.trans hk')]
      · exact hlater h
    | none =>
      rw [hb] at h
      rcases List.mem_cons.1 h with he | h
      · cases he
        refine ⟨rfl, ⟨sources, List.mem_cons_self, rfl⟩, fun k' hk' => ?_⟩
        cases hb.symm.trans hk'
      · exact hlater h

theorem entries_labelsOf (old : LabelTable) (positions : NatMap Nat)
    (groups : OrderedMap Address (Array Address)) :
    (labelsOf old (sortGroups positions groups)).entries =
      labelGroups old (.ofNames (keptNames old (sortGroups positions groups))) 0
        (sortGroups positions groups) := by
  refine OrderedMap.entries_ofList ?_
  rw [map_fst_labelGroups]
  exact nodup_keys_sortGroups positions groups

/-- The labels are those of the groups. -/
theorem keys_labelsOf (old : LabelTable) (positions : NatMap Nat)
    (groups : OrderedMap Address (Array Address)) :
    (labelsOf old (sortGroups positions groups)).keys =
      (sortGroups positions groups).map Prod.fst := by
  rw [OrderedMap.keys, entries_labelsOf, map_fst_labelGroups]

theorem contains_labelsOf (hg : Grouped code groups) (old : LabelTable) (positions : NatMap Nat)
    (a : Address) : (labelsOf old (sortGroups positions groups)).contains a ↔
      some a ∈ code.map Instruction.target? := by
  rw [OrderedMap.contains_iff_mem_keys, keys_labelsOf, List.mem_map]
  constructor
  · rintro ⟨⟨b, sources⟩, hb, rfl⟩
    exact ((mem_sortGroups hg).1 hb).1
  · intro ha
    exact ⟨(a, _), (mem_sortGroups hg).2 ⟨ha, rfl⟩, rfl⟩

/-! ## Numbers for new labels -/

/-- Counting on gives no word again before all have come up. -/
theorem add_ofNat_succ_ne {start : Int32} {j k : Nat} (hj : 0 < j) (hjk : j ≤ k)
    (hk : k < 2 ^ 32) : start + Int32.ofNat (k + 1) ≠ start + Int32.ofNat j := by
  intro h
  have hwords : Int32.ofNat (k + 1) = Int32.ofNat j := by grind
  have hmod : (k + 1) % 2 ^ 32 = j % 2 ^ 32 := by
    simpa using congrArg (fun w => w.toBitVec.toNat) hwords
  rw [Nat.mod_eq_of_lt (by omega : j < 2 ^ 32)] at hmod
  by_cases hfull : k + 1 = 2 ^ 32
  · rw [hfull, Nat.mod_self] at hmod
    omega
  · rw [Nat.mod_eq_of_lt (by omega : k + 1 < 2 ^ 32)] at hmod
    omega

theorem nextNumber_of_notMem {names : NameSet} {last : Int32}
    (h : .of (Label.numbered (last + 1).toInt) ∉ names) : nextNumber names last = last + 1 := by
  rw [nextNumber, NameSet.without?_eq_none.2 h]

/-- The search goes from number to number. `k` of the names have been passed; the others are still
looked for. -/
theorem nextNumber_search {all : NameSet} {start : Int32} {names : NameSet} {last : Int32} {k : Nat}
    (hlast : last = start + Int32.ofNat k) (hsize : k + names.size < 2 ^ 32)
    (hall : ∀ x, .of x ∈ all → .of x ∈ names ∨
      ∃ j, 0 < j ∧ j ≤ k ∧ x = Label.numbered (start + Int32.ofNat j).toInt) :
    .of (Label.numbered (nextNumber names last).toInt) ∉ all := by
  have hnext : last + 1 = start + Int32.ofNat (k + 1) := by
    rw [hlast, Int32.ofNat_add]
    grind
  fun_induction nextNumber names last generalizing k with
  | case1 names last rest hrest ih =>
    have hlt := rest.2
    refine ih hnext (by omega) (fun x hx => ?_) ?_
    · rcases hall x hx with hx | ⟨j, hj, hjk, rfl⟩
      · rcases NameSet.mem_of_without? hrest hx with rfl | hx
        · exact .inr ⟨k + 1, by omega, by omega, by rw [← hnext]⟩
        · exact .inl hx
      · exact .inr ⟨j, hj, by omega, rfl⟩
    · rw [hnext, Int32.ofNat_add, Int32.ofNat_add, Int32.ofNat_add]
      grind
  | case2 names last hnone =>
    intro hx
    rcases hall _ hx with hx | ⟨j, hj, hjk, he⟩
    · exact NameSet.without?_eq_none.1 hnone hx
    · have hsame := Int32.toInt_inj.1 (Label.numbered_inj he)
      exact add_ofNat_succ_ne hj hjk (by omega) (hnext.symm.trans hsame)

/-- **A number is found that no name in use has,** if there are fewer names than numbers. -/
theorem numbered_nextNumber_notMem {names : NameSet} (h : names.size < 2 ^ 32) (last : Int32) :
    .of (Label.numbered (nextNumber names last).toInt) ∉ names := by
  have hlast : last = last + Int32.ofNat 0 := by simp
  exact nextNumber_search hlast (by omega) fun x hx => .inl hx

end Program
end AdventureLogic
