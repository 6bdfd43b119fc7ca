import CnfSimp.Proofs.Arena.Dimacs
import CnfSimp.Proofs.Tally

/-!
# Sizing by a count

A count of an arena, compaction, and the records of its clauses are walks of their own, each of which tells by itself
what is live and how long it is. They agree.

* `recordsOf`, `readRecords`: clauses as words, each one behind its size, and back (`readRecords_recordsOf`).
* `Arena.records_eq`: the records of an arena for its totals are those of the live clauses.
* `Arena.allocate_compactFrom`: an arena of the totals of another one takes in its live clauses, and has no room left.
* `Tally.countAll_exact`: so both are right for the totals that a count gives (`Tally.Sizes`), as far as there are rows
  of so many words.
* `Arena.crowded`: an arena whose clauses share their cells, and have more literals than there is a row for
  (`Tally.crowded_totals_overflow`).
-/

namespace CnfSimp

variable {a : Arena} {c : List Lit} {cs : List (List Lit)}

/-! ## Records -/

/-- The size of every clause and then its literals, as words. -/
def recordsOf (cs : List (List Lit)) : List UInt32 := cs.flatMap fun c => .ofNat c.length :: c.map Lit.code

/-- The clauses that words stand for, if no size promises more words than there are. -/
def readRecords : List UInt32 → Option (List (List Lit))
  | [] => some []
  | size :: words =>
    if size.toNat ≤ words.length then
      (readRecords (words.drop size.toNat)).map ((words.take size.toNat).map Lit.mk :: ·)
    else none
termination_by words => words.length

theorem length_recordsOf (cs : List (List Lit)) : (recordsOf cs).length = cs.length + volume cs := by
  induction cs with
  | nil => rfl
  | cons c cs ih =>
    unfold recordsOf at *
    rw [List.flatMap_cons, List.length_append, ih, volume_cons, List.length_cons, List.length_cons, List.length_map]
    omega

theorem readRecords_append (hc : c.length < 2 ^ 32) (words : List UInt32) :
    readRecords (.ofNat c.length :: c.map Lit.code ++ words) = (readRecords words).map (c :: ·) := by
  have hsize : (UInt32.ofNat c.length).toNat = c.length := Nat.mod_eq_of_lt hc
  have hback : (c.map Lit.code).map Lit.mk = c := by
    rw [List.map_map]
    exact List.map_id c
  have hlen : (c.map Lit.code).length = c.length := List.length_map _
  rw [List.cons_append, readRecords, hsize, if_pos (by rw [List.length_append, hlen]; omega),
    List.drop_left' hlen, List.take_left' hlen, hback]

/-- The records of clauses are read back as these. -/
theorem readRecords_recordsOf (hcs : ∀ c ∈ cs, c.length < 2 ^ 32) : readRecords (recordsOf cs) = some cs := by
  induction cs with
  | nil => rw [recordsOf, List.flatMap_nil, readRecords]
  | cons c cs ih =>
    obtain ⟨hc, hcs⟩ := List.forall_mem_cons.1 hcs
    rw [recordsOf, List.flatMap_cons, readRecords_append hc]
    show (readRecords (recordsOf cs)).map _ = _
    rw [ih hcs, Option.map_some]

/-! ## Totals -/

namespace Arena

/-- The size of a live clause is a word. -/
theorem Readable.length_lt (ha : a.Readable) (hc : c ∈ a.bodies) : c.length < 2 ^ 32 := by
  obtain ⟨i, hi⟩ := mem_bodies.1 hc
  rw [← ha.size_clauseAt hi]
  exact (a.header i).size.toNat_lt

/-- The totals of an arena fit into the words that hold them, also together. -/
theorem Readable.totals_lt (ha : a.Readable) (hslots : a.headers.size < 2 ^ 32) :
    a.bodies.length < 2 ^ 32 ∧ a.bodies.length + volume a.bodies < 2 ^ 64 := by
  have hn := Nat.lt_of_le_of_lt a.length_bodies_le_slots hslots
  have hvolume : volume a.bodies ≤ a.bodies.length * (2 ^ 32 - 1) :=
    volume_le_mul fun c hc => Nat.le_sub_one_of_lt (ha.length_lt hc)
  have hmul := Nat.mul_le_mul_right (2 ^ 32 - 1) (Nat.le_sub_one_of_lt hn)
  exact ⟨hn, by omega⟩

/-- The records for the totals of the live clauses. They fault only where no vector is long enough. -/
theorem records_eq (ha : a.Readable) (hslots : a.headers.size < 2 ^ 32) :
    a.records a.bodies.length (volume a.bodies) =
      if a.bodies.length + volume a.bodies < 2 ^ 61 then .ok (recordsOf a.bodies) else .error .capacityOverflow := by
  have hparts : a.mapLive (fun _ c => do return c.header.size :: (← c.lits).map Lit.code) =
      .ok (a.bodies.map fun c => .ofNat c.length :: c.map Lit.code) := by
    rw [ha.status.mapLive_ok (g := fun _ c => .ofNat c.length :: c.map Lit.code) fun i c hc => ?_]
    · unfold bodies
      rw [List.map_filterMap]
    · have hsize : (a.clauseAt i).header.size = .ofNat c.length := by
        rw [← ha.size_clauseAt hc]
        exact UInt32.ofNat_toNat.symm
      rw [ha.lits_clauseAt (body_eq_some_iff.1 hc).1, text_of_body hc, ok_bind, hsize]
      rfl
  have hflat : (a.bodies.map fun c => .ofNat c.length :: c.map Lit.code).flatten = recordsOf a.bodies :=
    List.flatMap_def.symm
  have hlen := length_recordsOf a.bodies
  obtain ⟨-, hfits⟩ := ha.totals_lt hslots
  unfold records
  rw [sum64_ok hfits, ok_bind]
  split
  · next hlarge =>
    rw [if_neg (by omega)]
    rfl
  · next hsmall =>
    rw [if_pos (by omega)]
    simp only [hparts, ok_bind, hflat, hlen, if_true]
    rfl

/-- An arena of the totals of another one takes in its live clauses, and has no room left. -/
theorem allocate_compactFrom (ha : a.Readable) (hslots : a.headers.size < 2 ^ 32) (hlt : volume a.bodies < 2 ^ 61) :
    ∃ b b', allocate (.ofNat (max a.bodies.length 1)) (.ofNat (max (volume a.bodies) 1)) = .ok b ∧
      (compactFrom a).run? b = .ok ((), b') ∧ b'.bodies = a.bodies ∧ b'.len = a.bodies.length ∧
        b'.numLits = volume a.bodies := by
  obtain ⟨hn, -⟩ := ha.totals_lt hslots
  obtain ⟨b, hb, -, hbslots, hbcells⟩ := (allocate_max_ends (E := fun _ => False) (k := a.bodies.length)
    (m := volume a.bodies) (Or.inr ⟨hn, hlt⟩)).exists_ok fun _ => id
  have hbslots := hbslots hn
  have hbcells := hbcells (by omega)
  obtain ⟨_, hrun, rfl, hn', hv'⟩ := (compactFrom_eq (E := fun _ => False) (a := b) ha (by omega)
    (Or.inr ⟨by omega, by omega⟩)).exists_ok fun _ => id
  exact ⟨b, _, hb, hrun, bodies_compacted ha (by omega) (by omega) hn' hv', len_compacted (by omega) hn',
    numLits_compacted (by omega) hv'⟩

/-- There is no arena of such totals if its row of cells were too long. -/
theorem allocate_max_eq_error {k m : Nat} (hk : k < 2 ^ 32) (hm : m < 2 ^ 64) (hlong : 2 ^ 61 ≤ m) :
    allocate (.ofNat (max k 1)) (.ofNat (max m 1)) = .error .capacityOverflow := by
  have hslots : (UInt32.ofNat (max k 1)).toNat = max k 1 := Nat.mod_eq_of_lt (by omega)
  have hcells : (UInt64.ofNat (max m 1)).toNat = max m 1 := Nat.mod_eq_of_lt (by omega)
  refine allocate_eq_error (fun h0 => ?_) (by omega)
  rw [h0, UInt32.toNat_zero] at hslots
  omega

end Arena

/-- The totals of an arena size the next arena and the records. An arena allocated for them takes in the live clauses,
and all its slots and cells are in use then; the records are read back as the live clauses in order. This fails only
where `2 ^ 61` words were needed, for which there is no row. As long as no cell is in two blocks, the literals are no
more than the cells. -/
structure Tally.Sizes (t : Tally) (a : Arena) : Prop where
  numClauses_lt : t.numClauses < 2 ^ 32
  numLits_lt : t.numLits < 2 ^ 64
  numLits_le : a.Separated → t.numLits ≤ a.litCapacity
  next : t.numLits < 2 ^ 61 →
    ∃ b b', Arena.allocate (.ofNat (max t.numClauses 1)) (.ofNat (max t.numLits 1)) = .ok b ∧
      (Arena.compactFrom a).run? b = .ok ((), b') ∧ b'.bodies = a.bodies ∧ b'.len = t.numClauses ∧
        b'.numLits = t.numLits
  noNext : 2 ^ 61 ≤ t.numLits →
    Arena.allocate (.ofNat (max t.numClauses 1)) (.ofNat (max t.numLits 1)) = .error .capacityOverflow
  records : t.numClauses + t.numLits < 2 ^ 61 →
    ∃ words, a.records t.numClauses t.numLits = .ok words ∧ readRecords words = some a.bodies
  noRecords : 2 ^ 61 ≤ t.numClauses + t.numLits → a.records t.numClauses t.numLits = .error .capacityOverflow

theorem Tally.Counts.sizes {t : Tally} (h : t.Counts a) (ha : a.Readable) (hslots : a.headers.size < 2 ^ 32) :
    t.Sizes a := by
  obtain ⟨hn, hv⟩ := ha.totals_lt hslots
  have hlits : volume a.bodies < 2 ^ 64 := by omega
  have hrecords := Arena.records_eq ha hslots
  refine ⟨?_, ?_, fun hsep => ?_, fun hlt => ?_, fun hle => ?_, fun hlt => ?_, fun hle => ?_⟩ <;>
    simp only [h.numClauses, h.numLits] at *
  · exact hn
  · exact hlits
  · exact hsep.volume_le ha
  · exact Arena.allocate_compactFrom ha hslots hlt
  · exact Arena.allocate_max_eq_error hn hlits hle
  · rw [if_pos hlt] at hrecords
    exact ⟨_, hrecords, readRecords_recordsOf fun c => ha.length_lt⟩
  · rwa [if_neg (Nat.not_lt.2 hle)] at hrecords

/-- Counting an arena that can be read, whatever was counted before, gives the number of its live clauses, the number
of their literals, and the number of variables in none of them, and these totals size what is made of the arena next. -/
theorem Tally.countAll_exact {t : Tally} (hslots : a.headers.size < 2 ^ 32) (ha : a.Readable)
    (hvars : ∀ c ∈ a.bodies, ∀ l ∈ c, l.var < t.seen.capacity) :
    ∃ t', t.countAll a = .ok t' ∧
      t'.numClauses = a.bodies.length ∧ t'.numLits = volume a.bodies ∧
      t'.unusedVars = (absent t.seen.capacity a.bodies).length ∧ t'.Sizes a := by
  obtain ⟨t', hrun, hcounts, hcap⟩ := countAll_ok ha hvars rfl
  exact ⟨t', hrun, hcounts.numClauses, hcounts.numLits, hcounts.unusedVars_eq hcap, hcounts.sizes ha hslots⟩

/-- A clause of two literals, a melted and a deleted one, an empty one and a learnt one. The last of four variables is
in none of the three that are live, and what was counted before does not matter. -/
theorem Tally.countAll_exact_five_slots :
    let a : Arena := ⟨#[⟨0, 2, 33, 0, false⟩, ⟨2, 2, 6, 0, true⟩, ⟨4, 1, 32, 2, false⟩, ⟨5, 0, 0, 0, false⟩,
      ⟨5, 1, 16, 1, false⟩, .vacant], #[⟨0⟩, ⟨3⟩, ⟨1⟩, ⟨6⟩, ⟨5⟩, ⟨4⟩], 5, 6⟩
    let t : Tally := ⟨(BitSet.empty 4).insertAt ⟨3, by decide⟩, 9, 9, 9⟩
    ∃ t', t.countAll a = .ok t' ∧ t'.numClauses = 3 ∧ t'.numLits = 3 ∧ t'.unusedVars = 1 ∧
      ∃ words, a.records 3 3 = .ok words ∧ readRecords words = some [[⟨0⟩, ⟨3⟩], [], [⟨4⟩]] := by
  intro a t
  have hlive : a.live = .ok [0, 3, 4] := by decide
  have hinside : ∀ i < a.len, a.alive i → (a.header i).start.toNat + (a.header i).size.toNat ≤ a.cells.size := by decide
  have ha : a.Readable := ⟨by decide, Arena.labelled_of_live hlive, fun i hi => hinside i (Arena.alive_iff.1 hi).1 hi⟩
  have hbodies : a.bodies = [[⟨0⟩, ⟨3⟩], [], [⟨4⟩]] := by decide
  obtain ⟨t', hrun, hclauses, hlits, hunused, hsizes⟩ :=
    Tally.countAll_exact (t := t) (by decide) ha (by rw [hbodies]; decide)
  rw [hbodies] at hclauses hlits hunused
  have hclauses : t'.numClauses = 3 := hclauses
  have hlits : t'.numLits = 3 := hlits
  obtain ⟨words, hrecords, hread⟩ := hsizes.records (by rw [hclauses, hlits]; decide)
  rw [hclauses, hlits] at hrecords
  rw [hbodies] at hread
  exact ⟨t', hrun, hclauses, hlits, hunused.trans (by decide), words, hrecords, hread⟩

/-! ## Shared blocks -/

namespace Arena

/-- An arena of `n` slots that all have the block of the first `m` literals. -/
def crowded (n m : Nat) : Arena :=
  ⟨.replicate n (.install 0 (.ofNat m) (signature (firstLits m)) .irredundant), (firstLits m).toArray, .ofNat n,
    .ofNat m⟩

section Crowded

variable {m n : Nat} (hn : n < 2 ^ 32) (hm : m < 2 ^ 32)

include hn in
theorem len_crowded : (crowded n m).len = n := by
  have hcount : (UInt32.ofNat n).toNat = n := Nat.mod_eq_of_lt hn
  have hsize : (crowded n m).headers.size = n := Array.size_replicate
  show min (UInt32.ofNat n).toNat (crowded n m).headers.size = n
  rw [hcount, hsize, Nat.min_self]

theorem cells_crowded : (crowded n m).cells.size = m := by
  show (firstLits m).toArray.size = m
  rw [List.size_toArray, length_firstLits]

theorem header_crowded {i : Nat} (hi : i < n) :
    (crowded n m).header i = .install 0 (.ofNat m) (signature (firstLits m)) .irredundant := by
  unfold header crowded
  rw [Array.getElem?_replicate, if_pos hi, Option.getD_some]

include hm in
theorem text_crowded {i : Nat} (hi : i < n) : (crowded n m).text i = firstLits m := by
  have hsize : (UInt32.ofNat m).toNat = m := Nat.mod_eq_of_lt hm
  unfold text
  rw [header_crowded hi]
  show slice (firstLits m).toArray 0 (UInt32.ofNat m).toNat = _
  rw [hsize]
  simp [slice, length_firstLits]

include hn in
theorem alive_crowded {i : Nat} : (crowded n m).alive i ↔ i < n := by
  rw [alive_iff, len_crowded hn]
  refine and_iff_left_of_imp fun hi => ?_
  rw [header_crowded hi]
  rfl

include hn hm in
theorem bodies_crowded : (crowded n m).bodies = List.replicate n (firstLits m) := by
  refine List.eq_replicate_iff.2 ⟨?_, fun c hc => ?_⟩
  · rw [← length_survivors]
    unfold survivors crefs
    rw [len_crowded hn, List.filter_eq_self.2 fun i hi => (alive_crowded hn).2 (List.mem_range.1 hi), List.length_range]
  · obtain ⟨i, hi⟩ := mem_bodies.1 hc
    obtain ⟨hal, rfl⟩ := body_eq_some_iff.1 hi
    exact text_crowded hm ((alive_crowded hn).1 hal)

include hn hm in
theorem wf_crowded : (crowded n m).Wf := by
  have hsize : (UInt32.ofNat m).toNat = m := Nat.mod_eq_of_lt hm
  have hcount : (UInt64.ofNat m).toNat = m := Nat.mod_eq_of_lt (by omega)
  refine ⟨?_, ?_, fun i hi => ?_, fun i hi => ?_, fun i c hc => ?_⟩
  · show (Array.replicate n _).size < _
    rwa [Array.size_replicate]
  · rw [cells_crowded]
    omega
  · rw [len_crowded hn] at hi
    rw [header_crowded hi]
    exact ⟨.irredundant, rfl⟩
  · rw [len_crowded hn] at hi
    rw [header_crowded hi]
    show (0 : UInt64).toNat + (UInt32.ofNat m).toNat ≤ min (UInt64.ofNat m).toNat (crowded n m).cells.size
    rw [hsize, hcount, cells_crowded, UInt64.toNat_zero]
    omega
  · obtain ⟨hal, rfl⟩ := body_eq_some_iff.1 hc
    rw [text_crowded hm ((alive_crowded hn).1 hal)]
    exact pairwise_firstLits (by omega)

end Crowded

end Arena

open Arena in
/-- `2 ^ 30` slots that share a block of `2 ^ 31` literals, so that the row of cells for them would be too long. -/
theorem Tally.crowded_totals_overflow :
    let a := crowded (2 ^ 30) (2 ^ 31)
    a.Wf ∧ ∃ t, (Tally.zero (2 ^ 30)).countAll a = .ok t ∧ t.numClauses = 2 ^ 30 ∧ t.numLits = 2 ^ 61 ∧
      allocate (.ofNat (max t.numClauses 1)) (.ofNat (max t.numLits 1)) = .error .capacityOverflow ∧
      a.records t.numClauses t.numLits = .error .capacityOverflow := by
  intro a
  have hwf : a.Wf := wf_crowded (by decide) (by decide)
  have hbodies : a.bodies = List.replicate (2 ^ 30) (firstLits (2 ^ 31)) := bodies_crowded (by decide) (by decide)
  have hvars : ∀ c ∈ a.bodies, ∀ l ∈ c, l.var < 2 ^ 30 := fun c hc l hl => by
    rw [hbodies] at hc
    rw [List.eq_of_mem_replicate hc] at hl
    have hlt := index_of_mem_firstLits hl
    unfold Lit.index at hlt
    unfold Lit.var
    omega
  obtain ⟨t, hrun, hcounts, -⟩ := countAll_ok (t := .zero (2 ^ 30)) hwf.readable hvars rfl
  have hsizes := hcounts.sizes hwf.readable hwf.slots_lt
  have hclauses : t.numClauses = 2 ^ 30 := by
    rw [hcounts.numClauses, hbodies, List.length_replicate]
  have hlits : t.numLits = 2 ^ 61 := by
    rw [hcounts.numLits, hbodies, volume, List.map_replicate, List.sum_replicate, length_firstLits]
    rfl
  exact ⟨hwf, t, hrun, hclauses, hlits, hsizes.noNext (by omega), hsizes.noRecords (by omega)⟩

end CnfSimp
