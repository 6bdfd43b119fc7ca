import CnfSimp.Proofs.Arena.Compact
import CnfSimp.Proofs.WorkingSet
import CnfSimp.Tally

/-!
# Counting

* `BitSet.insertVars_ok`: adding the variables of literals.
* `absent`: the variables that occur in none of the clauses.
* `Tally.countAll_ok`: counting an arena gives the number of its live clauses, the number of their literals, and the
  number of variables absent from them (`Tally.Counts.unusedVars_eq`).
-/

namespace CnfSimp

variable {a : Arena} {lits : List Lit} {n : Nat}

/-- Adding the variables of literals that there is room for. -/
theorem BitSet.insertVars_ok {s : BitSet} (h : ∀ l ∈ lits, l.var < s.capacity) :
    ∃ t, s.insertVars lits = .ok t ∧ t.capacity = s.capacity ∧ ∀ x, t.mem x ↔ s.mem x ∨ ∃ l ∈ lits, l.var = x := by
  unfold insertVars
  induction lits generalizing s with
  | nil => exact ⟨s, rfl, rfl, by simp⟩
  | cons l lits ih =>
    obtain ⟨s₁, hins, hcap₁, hmem₁⟩ := insert_ok (h l List.mem_cons_self)
    obtain ⟨t, hrun, hcap, hmem⟩ := ih (s := s₁) fun k hk => by
      rw [hcap₁]
      exact h k (List.mem_cons_of_mem _ hk)
    refine ⟨t, by rw [List.foldlM_cons, hins, ok_bind, hrun], hcap.trans hcap₁, fun x => ?_⟩
    rw [hmem, hmem₁, Bool.or_eq_true, decide_eq_true_iff, or_assoc, List.exists_mem_cons_iff, eq_comm (a := x)]

/-- The members and the others make up the capacity. -/
theorem BitSet.capacity_sub_count (s : BitSet) :
    s.capacity - s.count = ((List.range s.capacity).filter fun x => !s.mem x).length := by
  have hsplit : s.capacity = s.count + ((List.range s.capacity).filter fun x => !s.mem x).length := by
    simpa [count_eq, List.countP_eq_length_filter] using
      List.length_eq_countP_add_countP s.mem (l := List.range s.capacity)
  omega

/-- The first `n` variables without those that occur in the clauses. -/
def absent (n : Nat) (cs : List (List Lit)) : List Nat :=
  (List.range n).filter fun x => ∀ c ∈ cs, ∀ l ∈ c, l.var ≠ x

namespace Tally

variable {t : Tally}

/-- A tally is the one of an arena. -/
structure Counts (t : Tally) (a : Arena) : Prop where
  numClauses : t.numClauses = a.bodies.length
  numLits : t.numLits = volume a.bodies
  seen : ∀ x, t.seen.mem x ↔ ∃ c ∈ a.bodies, ∃ l ∈ c, l.var = x
  unusedVars : t.unusedVars = t.seen.capacity - t.seen.count

/-- Marking the variables of the live clauses. -/
theorem countUnused_ok (ha : a.Readable) (hvars : ∀ c ∈ a.bodies, ∀ l ∈ c, l.var < n) (hcap : t.seen.capacity = n) :
    ∃ t', t.countUnused a = .ok t' ∧ t' = { t with seen := t'.seen, unusedVars := t'.unusedVars } ∧
      t'.seen.capacity = n ∧ (∀ x, t'.seen.mem x ↔ ∃ c ∈ a.bodies, ∃ l ∈ c, l.var = x) ∧
      t'.unusedVars = t'.seen.capacity - t'.seen.count := by
  have hloop : Ends (fun _ => False) (a.crefs.foldlM (fun seen cref => do
      let c ← a.clause cref
      if ← c.isLive then seen.insertVars (← c.lits) else return seen) t.seen.clear) fun seen =>
      seen.capacity = n ∧ ∀ x, seen.mem x ↔ ∃ i ∈ a.crefs, ∃ c, a.body i = some c ∧ ∃ l ∈ c, l.var = x := by
    refine ends_foldlM (fun (done : List Nat) (seen : BitSet) => seen.capacity = n ∧
      ∀ x, seen.mem x ↔ ∃ i ∈ done, ∃ c, a.body i = some c ∧ ∃ l ∈ c, l.var = x)
      ⟨hcap, fun x => by simp [BitSet.mem_clear]⟩ ?_
    rintro done i rest seen hcrefs ⟨hcap, hmem⟩
    have hi : i < a.len := List.mem_range.1 (show i ∈ a.crefs by rw [hcrefs]; simp)
    rw [Arena.clause_ok hi, ok_bind, ha.status.isLive_clauseAt hi, ok_bind]
    cases hal : a.alive i with
    | false =>
      refine ⟨hcap, fun x => ?_⟩
      simp [hmem, or_and_right, exists_or, Arena.body_eq_none_iff.2 hal]
    | true =>
      have hb := Arena.body_eq_some_iff.2 ⟨hal, rfl⟩
      obtain ⟨seen', hrun, hcap', hmem'⟩ := BitSet.insertVars_ok (s := seen) fun l hl =>
        hcap.symm ▸ hvars _ (Arena.mem_bodies.2 ⟨i, hb⟩) l hl
      rw [if_pos rfl, ha.lits_clauseAt hal, ok_bind, hrun]
      refine ⟨hcap'.trans hcap, fun x => ?_⟩
      simp [hmem', hmem, or_and_right, exists_or, hb]
  obtain ⟨seen, hrun, hcap', hmem⟩ := hloop.exists_ok fun _ => id
  refine ⟨{ t with seen, unusedVars := seen.capacity - seen.count }, ?_, rfl, hcap', fun x => ?_, rfl⟩
  · unfold countUnused
    rw [hrun]
    rfl
  · rw [hmem]
    constructor
    · rintro ⟨i, _, c, hc, h⟩
      exact ⟨c, Arena.mem_bodies.2 ⟨i, hc⟩, h⟩
    · rintro ⟨c, hc, h⟩
      obtain ⟨i, hi⟩ := Arena.mem_bodies.1 hc
      exact ⟨i, List.mem_range.2 (Arena.lt_of_body hi), c, hi, h⟩

/-- Counting an arena. -/
theorem countAll_ok (ha : a.Readable) (hvars : ∀ c ∈ a.bodies, ∀ l ∈ c, l.var < n) (hcap : t.seen.capacity = n) :
    ∃ t', t.countAll a = .ok t' ∧ t'.Counts a ∧ t'.seen.capacity = n := by
  have hlive : a.live = .ok (a.crefs.filter a.alive) := ha.status.live_ok
  have hsizes : (a.mapLive fun _ c => .ok c.size) = .ok (a.bodies.map List.length) := by
    rw [ha.status.mapLive_ok (g := fun _ c => c.length) fun i c hc => congrArg Except.ok (ha.size_clauseAt hc)]
    unfold Arena.bodies
    rw [List.map_filterMap]
  obtain ⟨t', hrun, hsame, hcap', hmem, hunused⟩ := countUnused_ok (t := { t with
    numClauses := (a.crefs.filter a.alive).length, numLits := (a.bodies.map List.length).sum }) ha hvars hcap
  refine ⟨t', ?_, ⟨?_, ?_, hmem, hunused⟩, hcap'⟩
  · unfold countAll countClauses countLits
    rw [hlive, hsizes]
    exact hrun
  · rw [hsame]
    show (a.crefs.filter a.alive).length = a.bodies.length
    rw [Arena.bodies_eq_map, List.length_map]
  · rw [hsame]
    rfl

/-- Counting an arena tells how many variables are absent from it. -/
theorem Counts.unusedVars_eq (h : t.Counts a) (hcap : t.seen.capacity = n) :
    t.unusedVars = (absent n a.bodies).length := by
  have hmem (x : Nat) : (!t.seen.mem x) = decide (∀ c ∈ a.bodies, ∀ l ∈ c, l.var ≠ x) := by
    rw [Bool.eq_iff_iff, Bool.not_eq_true', decide_eq_true_iff, ← Bool.not_eq_true, h.seen]
    simp
  rw [h.unusedVars, BitSet.capacity_sub_count, hcap]
  unfold absent
  simp only [hmem]

end Tally

end CnfSimp
