import AdventureLogic.Bytecode.Assemble
import AdventureLogic.Program.Basic
import AdventureLogic.Proofs.OrderedMap
import AdventureLogic.Proofs.Result

/-!
# Code in pieces

Code that is assembled can be seen as a list of pieces, each with the bytes of
its instruction and its place. Each piece is completed by itself: if it is a
jump, its last two bytes are replaced by the distance to the place of its
target. The code is what all completed pieces are together.

The buffer that is written and patched gives the same bytes, the same faults
and the same report (`assemble_eq`): it holds the bytes of the pieces one after
the other. A jump that is patched is found by its address, so it is the piece's
own jump, as addresses are distinct, and what is written over are the two zeros
at the end of the piece.

Key definitions: `Piece`, `place`, `fillIn`, `Placed`, `Draft.Holds`. Key
theorems: `Draft.agree_ofCode`, `Draft.agree_patch`, `assemble_eq`, `layout_eq`,
`layout_eq_ok`.
-/

namespace AdventureLogic
namespace Bytecode

open Program (addresses)

/-- An instruction at its place in the code, with its bytes. -/
structure Piece where
  instruction : Instruction
  offset : Nat
  bytes : List UInt8
  deriving DecidableEq, Inhabited

namespace Piece

/-- The address of the instruction. -/
def address (p : Piece) : Address := p.instruction.address

/-- The number of bytes. -/
def length (p : Piece) : Nat := p.bytes.length

/-- Where the bytes end. -/
def finish (p : Piece) : Nat := p.offset + p.length

/-- Where the bytes stand. -/
def placement (p : Piece) : Placement := ⟨p.offset, p.length⟩

/-- The jump that the instruction makes. -/
def jump? (p : Piece) : Option PendingJump := p.instruction.target?.map (⟨p.address, ·⟩)

/-- The bytes with the word `w` in place of the last two. -/
def withWord (p : Piece) (w : UInt16) : List UInt8 :=
  p.bytes.take (p.length - 2) ++ Word.bytes w

end Piece

/-- Where the pieces stand, by address. -/
def tableOf (pieces : List Piece) : OrderedMap Address Placement :=
  .ofList (pieces.map fun p => (p.address, p.placement))

/-- The offset that a layout gives for an address. -/
def offset? (table : OrderedMap Address Placement) (a : Address) : Option Nat :=
  (table.get? a).map Placement.offset

/-- The distance from the end of a piece to an offset. -/
def distance (p : Piece) (target : Nat) : Int := (target : Int) - p.finish

section

variable (set : CommandSet)

/-- Places instructions from `offset` on, after others with the addresses `taken`. -/
def placeFrom (taken : List Address) (offset : Nat) : List Instruction → Logged (List Piece)
  | [] => pure []
  | i :: rest => do
    let bytes ← encodeInstruction set i
    Logged.report (.placed offset i bytes.length)
    if i.address ∈ taken then
      throw (.conflictingAddress i.address)
    else
      (placeFrom (i.address :: taken) (offset + bytes.length) rest).map (⟨i, offset, bytes⟩ :: ·)

/-- Places all instructions of a code. -/
def place (code : List Instruction) : Logged (List Piece) := placeFrom set [] 0 code

/-- The final bytes of a piece: the distance of its jump, if it has one, is filled in. -/
def fillIn (table : OrderedMap Address Placement) (p : Piece) : Logged (List UInt8) :=
  match p.instruction.target? with
  | none => pure p.bytes
  | some t =>
    match offset? table t with
    | none => throw (.danglingTarget p.address t)
    | some target =>
      if Word.Fits (distance p target) then do
        Logged.report (.patched p.offset target (distance p target))
        return p.withWord (Word.ofSigned (distance p target))
      else throw (.jumpOutOfRange p.address (distance p target))

/-- The bytes of a code, piece by piece. -/
def assemblePieces (code : List Instruction) : Logged (List UInt8) := do
  let pieces ← place set code
  let filled ← pieces.mapM (fillIn (tableOf pieces))
  Logged.report (.assembled code.length filled.flatten.length)
  return filled.flatten

end

variable {set : CommandSet}

/-! ## Pieces at their places -/

/-- Pieces that stand one after the other from an offset on, each with the bytes of its
instruction. -/
inductive Placed (set : CommandSet) : Nat → List Piece → Prop where
  | nil {offset : Nat} : Placed set offset []
  | cons {p : Piece} {rest : List Piece} (h : encodeInstruction set p.instruction = .ok p.bytes)
    (hrest : Placed set p.finish rest) : Placed set p.offset (p :: rest)

theorem placeFrom_eq_ok : ∀ {code : List Instruction} {taken : List Address} {offset : Nat}
    {pieces : List Piece}, (placeFrom set taken offset code).result = .ok pieces →
      Placed set offset pieces ∧ pieces.map Piece.instruction = code ∧ (addresses code).Nodup ∧
        ∀ a ∈ addresses code, a ∉ taken
  | [], taken, offset, pieces, h => by
    cases h
    exact ⟨.nil, rfl, List.nodup_nil, fun _ ha => nomatch ha⟩
  | i :: rest, taken, offset, pieces, h => by
    obtain ⟨bytes, hbytes, h⟩ := Logged.result_bind_eq_ok.1 h
    obtain ⟨_, _, h⟩ := Logged.result_bind_eq_ok.1 h
    split at h
    · cases h
    · rename_i htaken
      obtain ⟨pieces', hrest, rfl⟩ := Result.map_eq_ok.1 h
      obtain ⟨hplaced, hcode, hnodup, hfresh⟩ := placeFrom_eq_ok hrest
      refine ⟨@Placed.cons set ⟨i, offset, bytes⟩ pieces' hbytes hplaced,
        congrArg (i :: ·) hcode, ?_, ?_⟩
      · exact List.nodup_cons.2 ⟨fun hi => hfresh _ hi List.mem_cons_self, hnodup⟩
      · intro a ha
        rcases List.mem_cons.1 ha with rfl | ha
        · exact htaken
        · exact fun hm => hfresh a ha (List.mem_cons_of_mem _ hm)

theorem encodeInstruction_ne_nil {i : Instruction} {bytes : List UInt8}
    (h : encodeInstruction set i = .ok bytes) : bytes ≠ [] := by
  cases i with
  | command a c =>
    cases h
    exact List.cons_ne_nil _ _
  | goto a t =>
    cases h
    exact List.cons_ne_nil _ _
  | condition a clauses skip =>
    cases skip with
    | none => cases h
    | some t =>
      obtain ⟨written, _, h⟩ := Result.bind_eq_ok.1 h
      cases h
      exact List.cons_ne_nil _ _

/-- The bytes of a jump end in an empty word. -/
theorem exists_body {i : Instruction} {bytes : List UInt8} {t : Address}
    (he : encodeInstruction set i = .ok bytes) (ht : i.target? = some t) :
    ∃ body, bytes = body ++ [0, 0] := by
  cases i with
  | command a c => cases ht
  | goto a t => exact ⟨[Opcode.gotoMarker], (Except.ok.inj he).symm⟩
  | condition a clauses skip =>
    cases skip with
    | none => cases ht
    | some t =>
      obtain ⟨parts, _, he⟩ := Result.bind_eq_ok.1 he
      refine ⟨Opcode.conditionMarker :: parts.flatten ++ [Opcode.conditionMarker], ?_⟩
      rw [← Except.ok.inj he, List.append_assoc]
      rfl

theorem withWord_eq {p : Piece} {front : List UInt8} {x y : UInt8} (h : p.bytes = front ++ [x, y])
    (w : UInt16) : p.withWord w = front ++ Word.bytes w := by
  have hlen : p.length - 2 = front.length := by
    rw [Piece.length, h, List.length_append]
    rfl
  rw [Piece.withWord, hlen, h, List.take_left]

/-- The table has the place of each piece, and of nothing else. -/
theorem get?_tableOf {pieces : List Piece} (hn : (pieces.map Piece.address).Nodup) {a : Address}
    {q : Placement} : (tableOf pieces).get? a = some q ↔
      ∃ p ∈ pieces, p.address = a ∧ p.placement = q := by
  have hkeys : ((pieces.map fun p => (p.address, p.placement)).map Prod.fst).Nodup := by
    rwa [List.map_map]
  rw [OrderedMap.get?_eq_some_iff, tableOf, OrderedMap.entries_ofList hkeys, List.mem_map]
  simp only [Prod.mk.injEq]

theorem offset?_tableOf {pieces : List Piece} (hn : (pieces.map Piece.address).Nodup) {p : Piece}
    (hp : p ∈ pieces) : offset? (tableOf pieces) p.address = some p.offset := by
  rw [offset?, (get?_tableOf hn).2 ⟨p, hp, rfl, rfl⟩]
  rfl

theorem exists_of_offset?_tableOf {pieces : List Piece} {a : Address} {n : Nat}
    (h : offset? (tableOf pieces) a = some n) : ∃ p ∈ pieces, p.address = a := by
  obtain ⟨q, hq, _⟩ := Option.map_eq_some_iff.1 h
  have hc : (tableOf pieces).contains a = true := by
    rw [OrderedMap.contains_eq_isSome_get?, hq]
    rfl
  have hmem := (OrderedMap.contains_ofList _ a).1 hc
  rw [List.map_map] at hmem
  exact List.mem_map.1 hmem

/-! ## What the buffer holds -/

namespace Draft

/-- The draft holds the pieces: their bytes one after the other, their places and their jumps. -/
structure Holds (d : Draft) (pieces : List Piece) : Prop where
  bytes : d.bytes.toList = (pieces.map Piece.bytes).flatten
  placements : d.placements = tableOf pieces
  jumps : d.jumps.toList = pieces.filterMap Piece.jump?

theorem holds_nil : Holds {} [] := ⟨rfl, rfl, rfl⟩

/-- The places are those of the pieces. -/
theorem Holds.contains_iff {d : Draft} {pieces : List Piece} (h : d.Holds pieces) (a : Address) :
    d.placements.contains a = true ↔ a ∈ pieces.map Piece.address := by
  rw [h.placements, tableOf, OrderedMap.contains_ofList, List.map_map]
  rfl

/-- A piece that is put behind the others. -/
theorem Holds.append {d : Draft} {pieces : List Piece} (h : d.Holds pieces) (i : Instruction)
    (bytes : List UInt8) :
    Holds { bytes := d.bytes ++ bytes
            placements := d.placements.insert i.address ⟨d.bytes.size, bytes.length⟩
            jumps := i.target?.elim d.jumps fun target => d.jumps.push ⟨i.address, target⟩ }
      (pieces ++ [⟨i, d.bytes.size, bytes⟩]) where
  bytes := by simp [h.bytes]
  placements := by
    rw [h.placements, tableOf, tableOf, OrderedMap.ofList, OrderedMap.ofList, List.map_append,
      List.foldl_append]
    rfl
  jumps := by
    rw [List.filterMap_append, ← h.jumps]
    cases ht : i.target? <;> simp [Piece.jump?, Piece.address, ht]

/-- **Placing agrees:** the buffer holds the pieces, or the same fault is found. -/
theorem agree_foldlM_add (code : List Instruction) :
    ∀ {d : Draft} {before : List Piece} {taken : List Address}, d.Holds before →
      (∀ a, a ∈ taken ↔ a ∈ before.map Piece.address) →
      Logged.Agree (fun d pieces => d.Holds (before ++ pieces)) (code.foldlM (add set) d)
        (placeFrom set taken d.bytes.size code) := by
  induction code with
  | nil =>
    intro d before taken h _
    rw [List.foldlM_nil]
    refine .pure ?_
    rwa [List.append_nil]
  | cons i rest ih =>
    intro d before taken h htaken
    rw [List.foldlM_cons, add, bind_assoc]
    refine .bind (.refl _) fun bytes _ _ _ hbytes => ?_
    cases hbytes
    rw [bind_assoc]
    refine .bind (.refl _) fun _ _ _ _ _ => ?_
    have hiff := h.contains_iff i.address
    by_cases hmem : i.address ∈ taken
    · rw [if_pos hmem, if_pos (hiff.2 ((htaken _).1 hmem))]
      exact .throw _
    · rw [if_neg hmem, if_neg fun hc => hmem ((htaken _).2 (hiff.1 hc)), pure_bind]
      have htaken' : ∀ a, a ∈ i.address :: taken ↔
          a ∈ (before ++ [(⟨i, d.bytes.size, bytes⟩ : Piece)]).map Piece.address := by
        intro a
        simp [htaken, or_comm, Piece.address]
      have hsize : (d.bytes ++ bytes).size = d.bytes.size + bytes.length := by
        rw [← Array.length_toList, Array.toList_appendList, List.length_append, Array.length_toList]
      have hrest := ih (h.append i bytes) htaken'
      rw [hsize] at hrest
      refine hrest.map_right fun d' pieces hd => ?_
      rwa [List.append_assoc] at hd

theorem agree_ofCode (code : List Instruction) :
    Logged.Agree Holds (ofCode set code) (place set code) :=
  agree_foldlM_add code holds_nil fun _ => Iff.rfl

/-! ## What is written over it -/

/-- Bytes are written over as many others, and the rest stays. -/
theorem toList_overwrite {back : List UInt8} : ∀ {new old front : List UInt8} {bytes : Array UInt8},
    bytes.toList = front ++ (old ++ back) → old.length = new.length →
      (overwrite bytes front.length new).toList = front ++ (new ++ back)
  | [], old, front, bytes, h, hlen => by
    rw [List.length_eq_zero_iff.1 hlen] at h
    exact h
  | b :: new, [], front, bytes, h, hlen => by cases hlen
  | b :: new, x :: old, front, bytes, h, hlen => by
    have hset : (bytes.setIfInBounds front.length b).toList = (front ++ [b]) ++ (old ++ back) := by
      simp [h]
    have hrest := toList_overwrite hset (Nat.succ.inj hlen)
    rw [List.length_append, List.length_singleton] at hrest
    rw [overwrite, hrest]
    simp

/-- The bytes around a piece, as they stand in the buffer when the jumps before it are done. -/
structure Around (d : Draft) (pieces : List Piece) (front : List UInt8) (p : Piece)
    (back : List UInt8) : Prop where
  placements : d.placements = tableOf pieces
  bytes : d.bytes.toList = front ++ (p.bytes ++ back)
  offset : front.length = p.offset

/-- **A patch agrees:** the jump of a piece is filled in at the end of the piece, and all around it
stays. -/
theorem agree_patch {d : Draft} {pieces : List Piece} {front back : List UInt8} {p : Piece}
    {j : PendingJump} (h : d.Around pieces front p back)
    (hn : (pieces.map Piece.address).Nodup) (hp : p ∈ pieces)
    (he : encodeInstruction set p.instruction = .ok p.bytes) (hj : p.jump? = some j) :
    Logged.Agree (fun d' bytes => d'.placements = d.placements ∧ bytes.length = p.length ∧
      d'.bytes.toList = front ++ (bytes ++ back)) (d.patch j) (fillIn (tableOf pieces) p) := by
  obtain ⟨t, ht, rfl⟩ := Option.map_eq_some_iff.1 hj
  have hsource : (tableOf pieces).get? p.address = some p.placement :=
    (get?_tableOf hn).2 ⟨p, hp, rfl, rfl⟩
  simp only [patch, fillIn, offset?, ht, hsource, h.placements]
  cases (tableOf pieces).get? t with
  | none => exact .throw _
  | some q =>
    dsimp only [Option.map_some]
    by_cases hfits : Word.Fits (distance p q.offset)
    · rw [if_pos hfits, if_pos (show Word.Fits (p.placement.distanceTo q) from hfits)]
      refine .bind (.refl _) fun _ _ _ _ _ => .pure ?_
      obtain ⟨body, hbody⟩ := exists_body he ht
      have hlength : p.length = body.length + 2 := by
        rw [Piece.length, hbody, List.length_append]
        rfl
      have hstop : p.placement.finish - 2 = (front ++ body).length := by
        rw [List.length_append, h.offset, Placement.finish, Piece.placement]
        dsimp only
        omega
      have hbytes : d.bytes.toList = (front ++ body) ++ ([0, 0] ++ back) := by
        rw [h.bytes, hbody]
        simp
      have hword : ([0, 0] : List UInt8).length =
          (Word.bytes (Word.ofSigned (distance p q.offset))).length := rfl
      have hnew := toList_overwrite hbytes hword
      rw [← hstop] at hnew
      rw [withWord_eq hbody]
      refine ⟨rfl, ?_, ?_⟩
      · rw [hlength, List.length_append]
        rfl
      · rw [List.append_assoc body, ← List.append_assoc front]
        exact hnew
    · rw [if_neg hfits, if_neg (show ¬Word.Fits (p.placement.distanceTo q) from hfits)]
      exact .throw _

/-- **Patching agrees:** the jumps are filled in one after the other. The induction is on the pieces
that are left; `front` holds the final bytes of those before them. -/
theorem agree_foldlM_patch {pieces : List Piece} (hn : (pieces.map Piece.address).Nodup)
    {rest : List Piece} {offset : Nat} (hplaced : Placed set offset rest) :
    ∀ {d : Draft} {front : List UInt8}, rest ⊆ pieces → d.placements = tableOf pieces →
      front.length = offset → d.bytes.toList = front ++ (rest.map Piece.bytes).flatten →
      Logged.Agree (fun d' filled => d'.bytes.toList = front ++ filled.flatten)
        ((rest.filterMap Piece.jump?).foldlM patch d) (rest.mapM (fillIn (tableOf pieces))) := by
  induction hplaced with
  | nil =>
    intro d front _ _ _ hbytes
    rw [List.filterMap_nil, List.foldlM_nil, List.mapM_nil]
    exact .pure hbytes
  | @cons p rest he _ ih =>
    intro d front hsub htable hfront hbytes
    have hp := hsub List.mem_cons_self
    have hrest : rest ⊆ pieces := fun q hq => hsub (List.mem_cons_of_mem _ hq)
    rw [List.map_cons, List.flatten_cons] at hbytes
    -- what is left to do once the piece has its final bytes
    have hnext : ∀ {d' : Draft} {bytes : List UInt8}, d'.placements = tableOf pieces →
        bytes.length = p.length →
        d'.bytes.toList = front ++ (bytes ++ (rest.map Piece.bytes).flatten) →
        Logged.Agree (fun d' filled => d'.bytes.toList = front ++ filled.flatten)
          ((rest.filterMap Piece.jump?).foldlM patch d')
          ((rest.mapM (fillIn (tableOf pieces))).map (bytes :: ·)) := by
      intro d' bytes htable' hlength hbytes'
      have hfinish : (front ++ bytes).length = p.finish := by
        rw [List.length_append, hfront, hlength, Piece.finish]
      rw [← List.append_assoc] at hbytes'
      refine (ih hrest htable' hfinish hbytes').map_right fun d'' filled hd => ?_
      rw [hd, List.flatten_cons, List.append_assoc]
    rw [List.mapM_cons]
    cases hj : p.jump? with
    | none =>
      have hnone : p.instruction.target? = none := by simpa [Piece.jump?] using hj
      have hfill : fillIn (tableOf pieces) p = pure p.bytes := by rw [fillIn, hnone]
      rw [List.filterMap_cons_none hj, hfill, pure_bind, Logged.bind_pure_eq_map]
      exact hnext htable rfl hbytes
    | some j =>
      rw [List.filterMap_cons_some hj, List.foldlM_cons]
      refine .bind (agree_patch ⟨htable, hbytes, hfront⟩ hn hp he hj) ?_
      rintro d' bytes _ _ ⟨htable', hlength, hbytes'⟩
      rw [Logged.bind_pure_eq_map]
      exact hnext (htable'.trans htable) hlength hbytes'

end Draft

/-! ## The same code -/

theorem nodup_pieces {code : List Instruction} {pieces : List Piece}
    (h : (place set code).result = .ok pieces) : (pieces.map Piece.address).Nodup := by
  obtain ⟨_, rfl, hnodup, _⟩ := placeFrom_eq_ok h
  rw [addresses, List.map_map] at hnodup
  exact hnodup

/-- **The buffer is written as the pieces say.** -/
theorem assemble_eq (set : CommandSet) (code : List Instruction) :
    assemble set code = assemblePieces set code := by
  refine Logged.Agree.eq (.bind (Draft.agree_ofCode code) ?_)
  intro d pieces _ hplace hd
  have hplaced := (placeFrom_eq_ok hplace).1
  have hbytes : d.bytes.toList = [] ++ (pieces.map Piece.bytes).flatten := hd.bytes
  rw [hd.jumps]
  refine .bind (Draft.agree_foldlM_patch (nodup_pieces hplace) hplaced (List.Subset.refl _)
    hd.placements List.length_nil hbytes) ?_
  intro d' filled _ _ hfilled
  rw [List.nil_append] at hfilled
  rw [← Array.length_toList, hfilled]
  exact .refl _

/-- **The layout is the table of the pieces.** -/
theorem layout_eq (set : CommandSet) (code : List Instruction) :
    layout set code = (place set code).map tableOf :=
  ((Draft.agree_ofCode code).map fun _ _ hd => hd.placements).eq

theorem layout_eq_ok {code : List Instruction} {table : OrderedMap Address Placement} :
    (layout set code).result = .ok table ↔
      ∃ pieces, (place set code).result = .ok pieces ∧ tableOf pieces = table := by
  rw [layout_eq, Logged.result_map]
  exact Result.map_eq_ok

end Bytecode
end AdventureLogic
