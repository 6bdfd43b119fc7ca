import CnfSimp.Proofs.Arena.Compact

/-!
# Compaction is exact

Compaction neither loses nor changes a live clause, wherever the blocks of the clauses lie: out of order, with gaps, or
one over another.

* `Arena.Keeps`: an arena holds the clauses in given slots of another one, and nothing else.
* `Arena.compacted_self`: an arena without gaps is its own compaction.
* `shrink_exact`: compaction in place keeps the live clauses, compaction into another arena leads to the same headers
  and cells, and to compact an arena a second time does not change it.
-/

namespace CnfSimp

namespace Arena

variable {a src : Arena} {is : List Nat} {n k : Nat}

/-- The number of literals of the clauses in the given slots, by their headers. -/
def extent (a : Arena) (is : List Nat) : Nat := (is.map fun i => (a.header i).size.toNat).sum

/-- The slots in use hold the clauses of another arena in the given slots, in that order: not melted, one after another
without gaps from the first cell on, and otherwise as they were. -/
structure Keeps (src : Arena) (is : List Nat) (a : Arena) : Prop where
  len : a.len = is.length
  numLits : a.numLits = src.extent is
  header : ∀ k i, is[k]? = some i → a.header k = { src.header i with start := (a.header k).start, molten := false }
  start : ∀ k i, is[k]? = some i → (a.header k).start.toNat = src.extent (is.take k)
  text : ∀ k i, is[k]? = some i → a.text k = src.text i

theorem extent_eq (ha : a.Readable) (hal : ∀ i ∈ is, a.alive i) : a.extent is = volume (is.map a.text) := by
  unfold extent volume
  rw [List.map_map]
  exact congrArg List.sum (List.map_congr_left fun i hi => (ha.length_text (hal i hi)).symm)

theorem extent_survivors (ha : a.Readable) : a.extent a.survivors = volume a.bodies := by
  rw [extent_eq ha fun i => alive_of_mem_survivors, bodies_eq_map]
  rfl

/-- What a list of the live clauses says about the arena. -/
theorem readable_of_live (hcells : a.cells.size < 2 ^ 64) (hlive : a.live = .ok is)
    (hin : ∀ i ∈ is, (a.header i).start.toNat + (a.header i).size.toNat ≤ a.cells.size) :
    a.Readable ∧ is = a.survivors := by
  have hlab := labelled_of_live hlive
  have his : is = a.survivors := Except.ok.inj (hlive.symm.trans hlab.live_ok)
  refine ⟨⟨hcells, hlab, fun i hi => hin i ?_⟩, his⟩
  rw [his]
  exact List.mem_filter.2 ⟨List.mem_range.2 (alive_iff.1 hi).1, hi⟩

/-- The live clauses are those that are neither deleted nor melted. -/
theorem mem_survivors {i : Nat} : i ∈ a.survivors ↔
    i < a.len ∧ (a.header i).status ≠ .ok .deleted ∧ (a.header i).molten = false := by
  unfold survivors
  rw [List.mem_filter, alive_iff, crefs, List.mem_range]
  constructor
  · rintro ⟨hi, _, hlive⟩
    obtain ⟨hcode, hmolten⟩ := Bool.and_eq_true_iff.1 hlive
    refine ⟨hi, fun hdel => ?_, by simpa using hmolten⟩
    rw [Header.status_eq_ok_iff.1 hdel] at hcode
    simp at hcode
  · rintro ⟨hi, hdel, hmolten⟩
    refine ⟨hi, hi, Bool.and_eq_true_iff.2 ⟨?_, by simpa using hmolten⟩⟩
    simpa using fun hcode => hdel (Header.status_eq_ok_iff.2 hcode)

section Compacted

variable (hsrc : src.Readable) (hslots : a.headers.size < 2 ^ 32) (hcells : a.cells.size < 2 ^ 64)
  (hn : src.bodies.length ≤ a.headers.size) (hroom : volume src.bodies ≤ a.cells.size)
include hsrc hslots hcells hn hroom

theorem keeps_compacted : Keeps src src.survivors (compacted src a) := by
  have hs := stacks_compacted hn hroom
  have hal : ∀ i ∈ src.survivors, src.alive i := fun i => alive_of_mem_survivors
  have hcells' : (compacted src a).cells.size < 2 ^ 64 := by rwa [cells_compacted]
  refine ⟨?_, ?_, fun k i hk => ?_, fun k i hk => ?_, fun k i hk => hs.text hsrc hal hcells' hk⟩
  · rw [len_compacted hslots hn, length_survivors]
  · rw [numLits_compacted hcells hroom, extent_survivors hsrc]
  · rw [hs.header k i hk]
    rfl
  · rw [hs.start hcells' hk, extent_eq hsrc fun j hj => hal j (List.mem_of_mem_take hj), List.map_take]

omit hsrc hslots in
/-- The cells in use are the literals of the live clauses. -/
theorem usedLits_compacted : (compacted src a).usedLits = src.bodies.flatten := by
  have hused := (stacks_compacted hn hroom).cells
  have hbodies : src.survivors.map src.text = src.bodies := (bodies_eq_map src).symm
  rw [hbodies] at hused
  unfold usedLits
  rw [numLits_compacted hcells hroom, ← hused, slice, Nat.zero_add]

/-- An arena without gaps is its own compaction. -/
theorem compacted_self : compacted (compacted src a) (compacted src a) = compacted src a := by
  have hbodies := bodies_compacted hsrc hslots hcells hn hroom
  have hread := readable_compacted hsrc hslots hcells hn hroom
  have hlen := len_compacted hslots hn
  have hal (k : Nat) (hk : k < src.bodies.length) : (compacted src a).alive k := by
    have hb := body_compacted hsrc hslots hcells hn hroom hk
    rw [List.getElem?_eq_getElem hk] at hb
    exact (body_eq_some_iff.1 hb).1
  have hsurv : (compacted src a).survivors = List.range' 0 src.bodies.length := by
    unfold survivors crefs
    rw [hlen, List.filter_eq_self.2 fun k hk => hal k (List.mem_range.1 hk), List.range_eq_range']
  -- Every clause is placed where it stands.
  have hplace (m k : Nat) (hm : k + m = src.bodies.length) :
      placeAll (compacted src a) k (volume (src.bodies.take k)) (List.range' k m) (compacted src a) =
        compacted src a := by
    induction m generalizing k with
    | zero => rfl
    | succ m ih =>
      have hk : k < src.bodies.length := by omega
      have hget : src.bodies[k]? = some src.bodies[k] := List.getElem?_eq_getElem hk
      have htext : (compacted src a).text k = src.bodies[k] :=
        text_of_body ((body_compacted hsrc hslots hcells hn hroom hk).trans hget)
      have hstart := start_compacted hcells hn hroom hk
      have hself : (compacted src a).placed k (((compacted src a).header k).moved (volume (src.bodies.take k)))
          (volume (src.bodies.take k)) ((compacted src a).text k) = compacted src a := by
        refine placed_self (by rw [slots_compacted]; omega) ?_ ?_
        · rw [← hstart, Header.moved_self (alive_iff.1 (hal k hk)).2]
        · rw [← hstart, hread.length_text (hal k hk)]
          rfl
      rw [List.range'_succ, placeAll, hself, htext, ← volume_take_succ hget]
      exact ih (k + 1) (by omega)
  have hall := hplace src.bodies.length 0 (Nat.zero_add _)
  rw [List.take_zero, volume_nil] at hall
  rw [compacted, hsurv, hall, hbodies]
  unfold closed
  rw [hlen, Nat.sub_self]
  rfl

end Compacted

end Arena

open Arena in
/-- Let the slots `is` be those of the live clauses, and let their blocks lie in the row of cells, which is long enough
for all of them together. Then they are the clauses neither deleted nor melted, in order, and compaction in place keeps
exactly them. The other slots that were in use are vacant. Compaction into any arena with room for them gives the same
headers and cells, and a second compaction changes nothing. -/
theorem shrink_exact {a : Arena} {is : List Nat} (hslots : a.headers.size < 2 ^ 32) (hcells : a.cells.size < 2 ^ 64)
    (hlive : a.live = .ok is)
    (hin : ∀ i ∈ is, (a.header i).start.toNat + (a.header i).size.toNat ≤ a.cells.size)
    (hroom : a.extent is ≤ a.cells.size) :
    (is.Pairwise (· < ·) ∧ ∀ i, i ∈ is ↔
      i < a.len ∧ (a.header i).status ≠ .ok .deleted ∧ (a.header i).molten = false) ∧
    ∃ a', shrink.run? a = .ok ((), a') ∧ Keeps a is a' ∧
      (∀ k, is.length ≤ k → k < a.len → a'.header k = .vacant) ∧
      (∀ b : Arena, b.headers.size < 2 ^ 32 → b.cells.size < 2 ^ 64 → is.length ≤ b.headers.size →
        a.extent is ≤ b.cells.size → ∃ b', (compactFrom a).run? b = .ok ((), b') ∧ Keeps a is b' ∧
          (∀ k, is.length ≤ k → k < b.len → b'.header k = .vacant) ∧ (∀ k < is.length, b'.header k = a'.header k) ∧
          b'.usedLits = a'.usedLits) ∧
      shrink.run? a' = .ok ((), a') := by
  obtain ⟨ha, rfl⟩ := readable_of_live hcells hlive hin
  rw [extent_survivors ha] at hroom
  have hlen := a.length_survivors
  have hn := a.length_bodies_le_slots
  refine ⟨⟨a.pairwise_survivors, fun i => mem_survivors⟩, compacted a a, shrink_eq ha hroom,
    keeps_compacted ha hslots hcells hn hroom, fun k hk hlt => header_compacted_of_le (hlen ▸ hk) hlt,
    fun b hslots' hcells' hn' hroom' => ?_, ?_⟩
  · rw [hlen] at hn'
    rw [extent_survivors ha] at hroom'
    obtain ⟨r, hrun, rfl, _⟩ := (compactFrom_eq (E := fun _ => False) ha hcells' (Or.inr ⟨hn', hroom'⟩)).exists_ok
      fun _ => id
    refine ⟨_, hrun, keeps_compacted ha hslots' hcells' hn' hroom',
      fun k hk hlt => header_compacted_of_le (hlen ▸ hk) hlt, fun k hk => ?_, ?_⟩
    · have hget : a.survivors[k]? = some a.survivors[k] := List.getElem?_eq_getElem hk
      rw [(stacks_compacted hn hroom).header k _ hget, (stacks_compacted hn' hroom').header k _ hget]
    · rw [usedLits_compacted hcells hn hroom, usedLits_compacted hcells' hn' hroom']
  · have hbodies := bodies_compacted ha hslots hcells hn hroom
    rw [shrink_eq (readable_compacted ha hslots hcells hn hroom) (by rwa [hbodies, cells_compacted]),
      compacted_self ha hslots hcells hn hroom]

open Arena in
/-- Three clauses over one another: the first block overlaps the third, and the second clause is melted. -/
theorem shrink_exact_three_clauses :
    let a : Arena := ⟨#[⟨1, 2, 7, 0, false⟩, ⟨0, 2, 3, 0, true⟩, ⟨0, 2, 5, 1, false⟩], #[⟨0⟩, ⟨2⟩, ⟨4⟩, ⟨6⟩], 3, 3⟩
    ∃ a', shrink.run? a = .ok ((), a') ∧ a'.len = 2 ∧ a'.numLits = 4 ∧ a'.text 0 = [⟨2⟩, ⟨4⟩] ∧
      a'.text 1 = [⟨0⟩, ⟨2⟩] ∧ a'.header 2 = .vacant ∧ shrink.run? a' = .ok ((), a') := by
  intro a
  obtain ⟨_, a', hrun, hkeeps, hvacant, _, hagain⟩ := @shrink_exact a [0, 2] (by decide) (by decide) (by decide)
    (by decide) (by decide)
  exact ⟨a', hrun, hkeeps.len, hkeeps.numLits, hkeeps.text 0 0 rfl, hkeeps.text 1 2 rfl,
    hvacant 2 (by decide) (by decide), hagain⟩

end CnfSimp
