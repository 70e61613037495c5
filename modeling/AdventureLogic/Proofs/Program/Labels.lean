import Mathlib.Data.List.Nodup
import AdventureLogic.Proofs.Program.Nesting

/-!
# The labels of a program

The labels of a program are computed from the jumps of its code, and anew after
every change. So between passes they match the code: the targets of jumps have
labels, which stand in code order, and each lists the instructions that jump to
it. A pass may not keep it so, but it changes no name: dropping redundant gotos
moves names to where the jumps now lead. A new label gets a number that no name
in use has, so names that were distinct stay distinct.

Key definitions: `Listing.Labelled`, `LabelTable.NamesDistinct`,
`Program.Evolves`. Key theorems: `Program.labelled_relabel`,
`Program.namesDistinct_relabel`, `Pass.namesDistinct_run`,
`Program.Evolves.labelled`, `Program.Evolves.namesDistinct`.
-/

namespace AdventureLogic

open Program (addresses)

/-- The labels of a listing are those of its code. -/
structure Listing.Labelled (l : Listing) : Prop where
  /-- The labels stand in the order of the instructions that they name. -/
  keys_eq : l.labels.keys =
    (addresses l.code).filter fun a => some a ∈ l.code.map Instruction.target?
  /-- Every target of a jump has a label. -/
  mem_keys_iff : ∀ a, a ∈ l.labels.keys ↔ ∃ i ∈ l.code, i.target? = some a
  address_eq : ∀ a label, l.labels.get? a = some label → label.address = a
  /-- A label lists the instructions that jump to it, in code order. -/
  references_eq : ∀ a label, l.labels.get? a = some label →
    label.references = (l.code.filter fun i => i.target? = some a).map Instruction.address
  references_nodup : ∀ a label, l.labels.get? a = some label → label.references.Nodup

/-- No two labels have the same name. -/
def LabelTable.NamesDistinct (t : LabelTable) : Prop := (t.values.map Label.name).Nodup

theorem LabelTable.namesDistinct_iff {t : LabelTable} :
    t.NamesDistinct ↔ ∀ {a b l l'}, t.get? a = some l → t.get? b = some l' → l.name = l'.name →
      a = b := by
  have hentries : t.entries.Nodup := .of_map Prod.fst t.keys_nodup
  rw [NamesDistinct, OrderedMap.values, List.map_map, List.nodup_map_iff_inj_on hentries]
  constructor
  · intro h a b l l' hl hl' hname
    have hsame := h _ ((t.get?_eq_some_iff a l).1 hl) _ ((t.get?_eq_some_iff b l').1 hl') hname
    exact congrArg Prod.fst hsame
  · rintro h ⟨a, l⟩ hl ⟨b, l'⟩ hl' hname
    rw [← t.get?_eq_some_iff] at hl hl'
    obtain rfl := h hl hl' hname
    rw [hl] at hl'
    rw [Option.some.inj hl']

namespace Program

/-! ## Computing labels anew -/

/-- There are no more groups than addresses. -/
theorem length_le_of_nodup_keys {groups : List (Address × Array Address)}
    (h : (groups.map Prod.fst).Nodup) : groups.length ≤ 2 ^ 32 := by
  have hnumbers : ((groups.map Prod.fst).map UInt32.toNat).Nodup :=
    h.map fun _ _ => UInt32.toNat_inj.1
  have hlt : ∀ n ∈ (groups.map Prod.fst).map UInt32.toNat, n < 2 ^ 32 := by
    intro n hn
    obtain ⟨a, _, rfl⟩ := List.mem_map.1 hn
    exact a.toNat_lt
  simpa using length_le_of_forall_lt hnumbers hlt

/-- Names of groups that had one before. -/
theorem mem_keptNames {old : LabelTable} {groups : List (Address × Array Address)} {a : Address}
    {sources : Array Address} {k : Label} (ha : (a, sources) ∈ groups) (hk : old.get? a = some k) :
    k.name ∈ keptNames old groups :=
  List.mem_filterMap.2 ⟨(a, sources), ha, by rw [hk, Option.map_some]⟩

/-- The groups that get a new name. -/
def newGroups (old : LabelTable) (groups : List (Address × Array Address)) : Nat :=
  groups.countP fun g => ¬(old.get? g.1).isSome

/-- A group keeps its name or gets a new one. -/
theorem length_keptNames_add_newGroups (old : LabelTable)
    (groups : List (Address × Array Address)) :
    (keptNames old groups).length + newGroups old groups = groups.length := by
  rw [keptNames, newGroups, List.length_filterMap_eq_countP,
    List.length_eq_countP_add_countP fun g : Address × Array Address => (old.get? g.1).isSome,
    funext fun g => Option.isSome_map]

/-- A name in use is none of those that are given, if no group keeps it and new names are not in
use. -/
theorem notMem_names_labelGroups {old : LabelTable} {used : NameSet} {last : Int32}
    {groups : List (Address × Array Address)} {name : String}
    (hnew : ∀ e ∈ labelGroups old used last groups, old.get? e.1 = none → .of e.2.name ∉ used)
    (hname : .of name ∈ used)
    (hkept : ∀ g ∈ groups, ∀ k, old.get? g.1 = some k → k.name ≠ name) :
    name ∉ (labelGroups old used last groups).map fun e => e.2.name := by
  intro hmem
  obtain ⟨⟨a, l⟩, hl, rfl⟩ := List.mem_map.1 hmem
  obtain ⟨_, ⟨sources, hsources, _⟩, hsame⟩ := mem_labelGroups hl
  cases ha : old.get? a with
  | none => exact hnew _ hl ha hname
  | some k => exact hkept _ hsources k ha (hsame k ha).symm

/-- **No name is given twice,** if the names before were distinct, those that are kept are in use,
and there are numbers enough. The new names are none of those in use. -/
theorem nodup_names_labelGroups {old : LabelTable} (hold : old.NamesDistinct) :
    ∀ (used : NameSet) (last : Int32) {groups : List (Address × Array Address)},
      (groups.map Prod.fst).Nodup →
      (∀ g ∈ groups, ∀ k, old.get? g.1 = some k → .of k.name ∈ used) →
      used.size + newGroups old groups ≤ 2 ^ 32 →
      ((labelGroups old used last groups).map fun e => e.2.name).Nodup ∧
        ∀ e ∈ labelGroups old used last groups, old.get? e.1 = none → .of e.2.name ∉ used
  | _, _, [], _, _, _ => ⟨List.nodup_nil, fun e he => absurd he List.not_mem_nil⟩
  | used, last, (b, sources) :: rest, hnodup, hused, hroom => by
    obtain ⟨hb, hrest⟩ := List.nodup_cons.1 hnodup
    have hused' := fun g hg => hused g (List.mem_cons_of_mem (b, sources) hg)
    unfold labelGroups
    unfold newGroups at hroom
    cases hget : old.get? b with
    | some k =>
      rw [List.countP_cons_of_neg (by simp [hget])] at hroom
      obtain ⟨hnames, hnew⟩ := nodup_names_labelGroups hold used last hrest hused' hroom
      have hname := hused _ List.mem_cons_self k hget
      -- no other group had the name before
      have hother : ∀ g ∈ rest, ∀ k', old.get? g.1 = some k' → k'.name ≠ k.name := by
        intro g hg k' hk' hsame
        have hgb := LabelTable.namesDistinct_iff.1 hold hk' hget hsame
        exact hb (List.mem_map.2 ⟨g, hg, hgb⟩)
      refine ⟨List.nodup_cons.2 ⟨notMem_names_labelGroups hnew hname hother, hnames⟩, ?_⟩
      intro e he hnone
      rcases List.mem_cons.1 he with rfl | he
      · cases hget.symm.trans hnone
      · exact hnew e he hnone
    | none =>
      rw [List.countP_cons_of_pos (by simp [hget])] at hroom
      have hfree := numbered_nextNumber_notMem (show used.size < 2 ^ 32 by omega) last
      dsimp only
      generalize nextNumber used last = n at hfree ⊢
      have hsize := used.size_add_le (Label.numbered n.toInt)
      obtain ⟨hnames, hnew⟩ := nodup_names_labelGroups hold (used.add (Label.numbered n.toInt)) n
        hrest (fun g hg k hk => NameSet.mem_add.2 (.inr (hused' g hg k hk)))
        (by rw [newGroups]; omega)
      have hother : ∀ g ∈ rest, ∀ k, old.get? g.1 = some k → k.name ≠ Label.numbered n.toInt :=
        fun g hg k hk hsame => hfree (hsame ▸ hused' g hg k hk)
      refine ⟨List.nodup_cons.2
        ⟨notMem_names_labelGroups hnew (NameSet.mem_add.2 (.inl rfl)) hother, hnames⟩, ?_⟩
      intro e he hnone
      rcases List.mem_cons.1 he with rfl | he
      · exact hfree
      · exact fun hmem => hnew e he hnone (NameSet.mem_add.2 (.inr hmem))

/-- **Labels that are computed anew match the code,** if its addresses are distinct. -/
theorem labelled_relabel {p q : Program} (hn : (addresses p.code).Nodup) (h : p.relabel = .ok q) :
    q.listing.Labelled := by
  obtain ⟨groups, hgroups, rfl⟩ := relabel_eq_ok.1 h
  have hg := grouped_groupJumps hgroups
  have htarget := exists_groupJumps_iff.1 ⟨groups, hgroups⟩
  have hkeys : (labelsOf p.labels (sortGroups (positionsOf p.code) groups)).keys =
      targetsOf p.code := by
    rw [keys_labelsOf, sortGroups_eq hn htarget hg, List.map_map]
    exact List.map_id _
  have hlabel : ∀ {a l},
      (labelsOf p.labels (sortGroups (positionsOf p.code) groups)).get? a = some l →
        l.address = a ∧ l.references = references p.code a := by
    intro a l hl
    rw [OrderedMap.get?_eq_some_iff, entries_labelsOf] at hl
    obtain ⟨haddress, ⟨sources, hsources, hreferences⟩, _⟩ := mem_labelGroups hl
    rw [← ((mem_sortGroups hg).1 hsources).2] at hreferences
    exact ⟨haddress, hreferences⟩
  refine ⟨hkeys, fun a => ?_, fun a l hl => (hlabel hl).1, fun a l hl => (hlabel hl).2,
    fun a l hl => ?_⟩
  · rw [← OrderedMap.contains_iff_mem_keys]
    exact (contains_labelsOf hg p.labels _ a).trans List.mem_map
  · rw [(hlabel hl).2]
    exact hn.sublist (List.filter_sublist.map _)

/-- **Names that were distinct are distinct again** when labels are computed anew. -/
theorem namesDistinct_relabel {p q : Program} (hp : p.labels.NamesDistinct)
    (h : p.relabel = .ok q) : q.labels.NamesDistinct := by
  obtain ⟨groups, _, rfl⟩ := relabel_eq_ok.1 h
  have hnodup := nodup_keys_sortGroups (positionsOf p.code) groups
  rw [LabelTable.NamesDistinct, OrderedMap.values, entries_labelsOf, List.map_map]
  refine (nodup_names_labelGroups hp _ 0 hnodup
    (fun g hg k hk => NameSet.mem_ofNames.2 (mem_keptNames hg hk)) ?_).1
  calc (NameSet.ofNames (keptNames p.labels _)).size + newGroups p.labels _
      ≤ (keptNames p.labels _).length + newGroups p.labels _ :=
        Nat.add_le_add_right (NameSet.size_ofNames_le _) _
    _ = (sortGroups (positionsOf p.code) groups).length := length_keptNames_add_newGroups _ _
    _ ≤ 2 ^ 32 := length_le_of_nodup_keys hnodup

/-! ## Passes -/

/-- A label that moves keeps its name, and no other label has it. -/
theorem namesDistinct_moveLabel (sent : OrderedMap Address Address) {labels : LabelTable}
    (h : labels.NamesDistinct) (dropped : Address) :
    (moveLabel sent labels dropped).NamesDistinct := by
  unfold moveLabel
  cases hl : labels.get? dropped with
  | none => exact h
  | some l =>
    dsimp only
    rw [LabelTable.namesDistinct_iff] at h ⊢
    -- what is found afterwards was there before, or is the label that has moved
    have hfound : ∀ {a k}, ((labels.erase dropped).insertIfNew (resolve sent dropped)
        { l with address := resolve sent dropped }).get? a = some k →
        (a ≠ dropped ∧ labels.get? a = some k) ∨ (a = resolve sent dropped ∧ k.name = l.name) := by
      intro a k hk
      rw [OrderedMap.get?_insertIfNew, OrderedMap.get?_erase] at hk
      split at hk
      · rename_i hnew
        cases hk
        exact .inr ⟨hnew.1.symm, rfl⟩
      · split at hk
        · cases hk
        · rename_i hne
          exact .inl ⟨Ne.symm hne, hk⟩
    intro a b k k' hk hk' hname
    rcases hfound hk with ⟨hne, hk⟩ | ⟨rfl, hkl⟩
    · rcases hfound hk' with ⟨_, hk'⟩ | ⟨_, hkl'⟩
      · exact h hk hk' hname
      · exact absurd (h hk hl (hname.trans hkl')) hne
    · rcases hfound hk' with ⟨hne, hk'⟩ | ⟨rfl, _⟩
      · exact absurd (h hk' hl (hname.symm.trans hkl)) hne
      · rfl

theorem namesDistinct_moveLabels (sent : OrderedMap Address Address) :
    ∀ (dropped : List Address) {labels : LabelTable}, labels.NamesDistinct →
      (dropped.foldl (moveLabel sent) labels).NamesDistinct
  | [], _, h => h
  | a :: rest, _, h => namesDistinct_moveLabels sent rest (namesDistinct_moveLabel sent h a)

theorem labels_selfContain {p : Program} (h : p.selfContain.result = .ok true) :
    p.selfContain.program.labels = p.labels := by
  obtain ⟨c, n, a, pool, _, _, _, hprogram⟩ := selfContain_eq_ok_true h
  rw [hprogram]
  exact labels_bridge p c.limit

end Program

namespace Pass

/-- **A pass gives no label a new name,** so distinct names stay distinct. -/
theorem namesDistinct_run {pass : Pass} {p : Program} (hp : p.labels.NamesDistinct)
    (h : (pass.run p).result = .ok true) : (pass.run p).program.labels.NamesDistinct := by
  cases pass with
  | unreachable => exact hp
  | selfContained =>
    show p.selfContain.program.labels.NamesDistinct
    rwa [Program.labels_selfContain h]
  | redundantGotos =>
    show p.dropRedundantGotos.program.labels.NamesDistinct
    unfold Program.dropRedundantGotos
    dsimp only
    split
    · exact hp
    · exact Program.namesDistinct_moveLabels _ _ hp

theorem labelled_toFixpoint {pass : Pass} {name : String} {p : Program} {n : Nat} (hp : p.Sound)
    (hl : p.listing.Labelled) (h : (pass.toFixpoint name p).result = .ok n) :
    (pass.toFixpoint name p).program.listing.Labelled := by
  refine settle_induction (I := fun q => q.listing.Labelled) (fun p q hp _ hrun hq => ?_) hp hl h
  exact Program.labelled_relabel (addressed_run hp hrun).nodup hq

theorem namesDistinct_toFixpoint {pass : Pass} {name : String} {p : Program} {n : Nat} (hp : p.Sound)
    (hd : p.labels.NamesDistinct) (h : (pass.toFixpoint name p).result = .ok n) :
    (pass.toFixpoint name p).program.labels.NamesDistinct := by
  refine settle_induction (I := fun q => q.labels.NamesDistinct) (fun p q _ hd hrun hq => ?_) hp hd h
  exact Program.namesDistinct_relabel (namesDistinct_run hd hrun) hq

end Pass

namespace Program

/-- What every pass keeps that is run to its end holds in normal form. -/
theorem normalize_induction {I : Program → Prop}
    (hpass : ∀ (pass : Pass) (name : String) (p : Program) (n : Nat), p.Sound → I p →
      (pass.toFixpoint name p).result = .ok n → I (pass.toFixpoint name p).program)
    {p : Program} {selfContained : Bool} (hp : p.Sound) (hI : I p)
    (h : (p.normalize selfContained).result = .ok ()) :
    I (p.normalize selfContained).program := by
  unfold normalize at h ⊢
  obtain ⟨n₁, h₁, h, hp₁⟩ := Outcome.andThen_eq_ok h
  obtain ⟨n₂, h₂, h, hp₂⟩ := Outcome.andThen_eq_ok h
  obtain ⟨n₃, h₃, h, hp₃⟩ := Outcome.andThen_eq_ok h
  rw [hp₁, hp₂, hp₃]
  have hs₁ : (Pass.unreachable.toFixpoint Pass.unreachable.name p).program.Sound :=
    Pass.sound_settle hp
  have hI₁ := hpass _ _ _ _ hp hI h₁
  cases selfContained with
  | false => exact hpass _ _ _ _ hs₁ hI₁ h₃
  | true =>
    have hI₂ := hpass _ _ _ _ hs₁ hI₁ h₂
    exact hpass _ _ _ _ (Pass.sound_settle hs₁) hI₂ h₃

/-- The programs that a program becomes by passes that succeed, run to their ends one by one or as
they bring it into normal form. -/
inductive Evolves (p : Program) : Program → Prop where
  | refl : Evolves p p
  | toFixpoint {q : Program} (pass : Pass) (name : String) {n : Nat} (h : Evolves p q)
    (hok : (pass.toFixpoint name q).result = .ok n) : Evolves p (pass.toFixpoint name q).program
  | normalize {q : Program} (selfContained : Bool) (h : Evolves p q)
    (hok : (q.normalize selfContained).result = .ok ()) :
    Evolves p (q.normalize selfContained).program

namespace Evolves

variable {p q : Program}

/-- What every pass keeps holds of all programs that a program becomes. -/
theorem induction_on {I : Program → Prop} (hp : p.Sound) (hI : I p)
    (hpass : ∀ (pass : Pass) (name : String) (p : Program) (n : Nat), p.Sound → I p →
      (pass.toFixpoint name p).result = .ok n → I (pass.toFixpoint name p).program)
    (h : Evolves p q) : q.Sound ∧ I q := by
  induction h with
  | refl => exact ⟨hp, hI⟩
  | toFixpoint pass name _ hok ih =>
    exact ⟨Pass.sound_settle ih.1, hpass pass name _ _ ih.1 ih.2 hok⟩
  | normalize selfContained _ hok ih =>
    exact ⟨(refined_normalize ih.1 hok).2, normalize_induction hpass ih.1 ih.2 hok⟩

theorem labelled (h : Evolves p q) (hp : p.Sound) (hl : p.listing.Labelled) :
    q.listing.Labelled :=
  (h.induction_on hp hl fun _ _ _ _ => Pass.labelled_toFixpoint).2

theorem namesDistinct (h : Evolves p q) (hp : p.Sound) (hd : p.labels.NamesDistinct) :
    q.labels.NamesDistinct :=
  (h.induction_on hp hd fun _ _ _ _ => Pass.namesDistinct_toFixpoint).2

end Evolves

/-- A program that is made from code has the labels of the code. The names that it is given are
distinct if those in the table are. -/
theorem labelled_ofCode {code : List Instruction} {labels : LabelTable} {p : Program}
    (h : ofCode code labels = .ok p) :
    p.listing.Labelled ∧ (labels.NamesDistinct → p.labels.NamesDistinct) := by
  obtain ⟨pool, hpool, h⟩ := Result.bind_eq_ok.1 h
  have hn := AddressPool.nodup_of_ofInstructions hpool
  exact ⟨labelled_relabel hn h, fun hd => namesDistinct_relabel hd h⟩

end Program
end AdventureLogic
