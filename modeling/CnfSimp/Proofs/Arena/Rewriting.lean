import CnfSimp.Proofs.Arena.Edit

/-!
# Rewriting a clause of an arena

* `Arena.Rewrites a a' i ys`: the clause in slot `i` has become `ys`, and the rest of the arena is as before.
* `Arena.rewriting_exact`: dropping repetitions, taking over a list without them, and dropping a literal rewrite a
  clause in this sense.
-/

namespace CnfSimp.Arena

variable {a a' : Arena} {i : Nat} {xs ys : List Lit}

/-- The clause in a slot has the literals `ys` and their signature. Nothing else has changed: not its place, its status
or whether it is melted, no other header, no counter, and no cell but those that hold `ys`. -/
structure Rewrites (a a' : Arena) (i : Nat) (ys : List Lit) : Prop where
  lits : a'.lits i = .ok ys
  header : a'.header i = { a.header i with size := .ofNat ys.length, sig := signature ys }
  headers : ∀ j, j ≠ i → a'.headers[j]? = a.headers[j]?
  outside : ∀ p, p < (a.header i).start.toNat ∨ (a.header i).start.toNat + ys.length ≤ p → a'.cells[p]? = a.cells[p]?
  slots : a'.headers.size = a.headers.size
  cells : a'.cells.size = a.cells.size
  clauseCount : a'.clauseCount = a.clauseCount
  litCount : a'.litCount = a.litCount

/-- The arena with the clause of a slot rewritten. -/
def rewritten (a : Arena) (i : Nat) (ys : List Lit) : Arena :=
  { a with
    headers := a.headers.setIfInBounds i ((a.clauseAt i).rewritten ys).header
    cells := ((a.clauseAt i).rewritten ys).cells }

/-- A clause that can be read is in a slot. -/
theorem lits_eq_ok_iff : a.lits i = .ok xs ↔ i < a.headers.size ∧ (a.clauseAt i).lits = .ok xs := by
  by_cases hi : i < a.headers.size
  · rw [lits, clause_eq hi, ok_bind]
    exact ⟨fun h => ⟨hi, h⟩, And.right⟩
  · have hclause : a.clause i = .error .outOfBounds := by rw [clause, Array.getElem?_eq_none (Nat.le_of_not_lt hi)]
    rw [lits, hclause, error_bind]
    constructor
    · intro h
      cases h
    · intro h
      exact absurd h.1 hi

/-- A clause that does not grow is rewritten within its block. -/
theorem rewrites_rewritten (h : a.lits i = .ok xs) (hle : ys.length ≤ xs.length) :
    a.Rewrites (a.rewritten i ys) i ys := by
  obtain ⟨hi, hlits⟩ := lits_eq_ok_iff.1 h
  have hheader : (a.rewritten i ys).header i = ((a.clauseAt i).rewritten ys).header :=
    (header_withHeader hi _).trans (if_pos rfl)
  refine ⟨lits_eq_ok_iff.2 ⟨?_, ?_⟩, hheader, fun j hj => ?_, fun p hp => ?_, ?_, ?_, rfl, rfl⟩
  · rw [rewritten, Array.size_setIfInBounds]
    exact hi
  · rw [clauseAt, hheader]
    exact Clause.lits_rewritten hlits hle
  · exact Array.getElem?_setIfInBounds_ne (Ne.symm hj)
  · exact getElem?_overwrite_of_outside hp
  · exact Array.size_setIfInBounds
  · exact size_overwrite _ _ _

/-- An operation that rewrites a clause where it lies. -/
theorem run?_onClause_rewritten {α : Type} {op : Update Clause α} {r : α} (hi : i < a.headers.size)
    (hop : op.run? (a.clauseAt i) = .ok (r, (a.clauseAt i).rewritten ys)) :
    (onClause i op).run? a = .ok (r, a.rewritten i ys) := by
  rw [run?_onClause hi, hop]
  rfl

/-- A list whose literals fit without adjacent repetitions is taken over without them. -/
theorem run?_assignDedup (h : a.lits i = .ok ys) (hle : (xs.destutter (· ≠ ·)).length ≤ ys.length) :
    (onClause i (Clause.assignDedup xs)).run? a = .ok ((), a.rewritten i (xs.destutter (· ≠ ·))) := by
  obtain ⟨hi, hlits⟩ := lits_eq_ok_iff.1 h
  obtain ⟨h64, hin, -⟩ := block_eq_ok_iff.1 hlits
  rw [Clause.length_of_lits hlits] at hle
  have hend := Nat.add_le_add_left hle (a.clauseAt i).start
  exact run?_onClause_rewritten hi
    (Clause.run?_assignDedup (Nat.le_trans hend hin) (Nat.lt_of_le_of_lt hend h64))

/-- **Rewriting a clause where it lies.** In a clause that can be read, dropping repetitions leaves the literals that
differ from the one before them, with their signature; they ascend if the clause was sorted. Taking over the old
literals from a list gives the same arena, and the same literals and signature in any clause of any arena in which they
fit. Dropping a literal answers whether it is there, and leaves the literals without its first occurrence, with their
signature. Nothing else changes. -/
theorem rewriting_exact (h : a.lits i = .ok xs) :
    (∃ a', (onClause i Clause.dedup).run? a = .ok ((), a') ∧
      (onClause i (Clause.assignDedup xs)).run? a = .ok ((), a') ∧ a.Rewrites a' i (xs.destutter (· ≠ ·))) ∧
    (xs.Pairwise (· ≤ ·) → (xs.destutter (· ≠ ·)).Pairwise (· < ·)) ∧
    (∀ (b : Arena) (j : Nat) (zs : List Lit), b.lits j = .ok zs → (xs.destutter (· ≠ ·)).length ≤ zs.length →
      ∃ b', (onClause j (Clause.assignDedup xs)).run? b = .ok ((), b') ∧ b.Rewrites b' j (xs.destutter (· ≠ ·))) ∧
    (∀ l ∈ xs, ∃ a', (onClause i (Clause.erase l)).run? a = .ok (true, a') ∧ a.Rewrites a' i (xs.erase l)) ∧
    ∀ l, l ∉ xs → (onClause i (Clause.erase l)).run? a = .ok (false, a) := by
  obtain ⟨hi, hlits⟩ := lits_eq_ok_iff.1 h
  have hle : (xs.destutter (· ≠ ·)).length ≤ xs.length := (List.destutter_sublist _ _).length_le
  refine ⟨?_, fun hsorted => ?_, fun b j zs hzs hfits => ?_, fun l hl => ?_, fun l hl => ?_⟩
  · have hdedup := run?_onClause_rewritten hi (Clause.run?_dedup hlits)
    exact ⟨_, hdedup, run?_assignDedup h hle, rewrites_rewritten h hle⟩
  · rw [← dedupAdjacent_eq_destutter]
    exact pairwise_dedupAdjacent hsorted
  · exact ⟨_, run?_assignDedup hzs hfits, rewrites_rewritten hzs hfits⟩
  · have herase := run?_onClause_rewritten hi (Clause.run?_erase hlits hl)
    exact ⟨_, herase, rewrites_rewritten h List.erase_sublist.length_le⟩
  · exact run?_erase_of_notMem hi hlits hl

/-- A clause with repetitions, and another one behind it: the first loses them, while the cells behind its new end stay;
the second takes over the literals that the first had; the first loses a literal, and is asked for one it lacks. -/
theorem rewriting_exact_between_clauses :
    let a : Arena := ⟨#[⟨0, 1, 4, 0, false⟩, ⟨1, 5, 0, 1, false⟩, ⟨6, 2, 6, 0, false⟩],
      #[⟨2⟩, ⟨2⟩, ⟨2⟩, ⟨5⟩, ⟨5⟩, ⟨5⟩, ⟨1⟩, ⟨3⟩], 3, 8⟩
    (∃ a', (onClause 1 Clause.dedup).run? a = .ok ((), a') ∧ a'.lits 1 = .ok [⟨2⟩, ⟨5⟩] ∧
      a'.header 1 = ⟨1, 2, 36, 1, false⟩ ∧ a'.cells[5]? = some ⟨5⟩ ∧ a'.cells[6]? = some ⟨1⟩) ∧
    (∃ a', (onClause 2 (Clause.assignDedup [⟨2⟩, ⟨2⟩, ⟨5⟩, ⟨5⟩, ⟨5⟩])).run? a = .ok ((), a') ∧
      a'.lits 2 = .ok [⟨2⟩, ⟨5⟩] ∧ a'.header 2 = ⟨6, 2, 36, 0, false⟩) ∧
    (∃ a', (onClause 1 (Clause.erase ⟨5⟩)).run? a = .ok (true, a') ∧ a'.lits 1 = .ok [⟨2⟩, ⟨2⟩, ⟨5⟩, ⟨5⟩]) ∧
    (onClause 1 (Clause.erase ⟨1⟩)).run? a = .ok (false, a) := by
  intro a
  have hlits : a.lits 1 = .ok [⟨2⟩, ⟨2⟩, ⟨5⟩, ⟨5⟩, ⟨5⟩] := by decide
  have hkept : ([⟨2⟩, ⟨2⟩, ⟨5⟩, ⟨5⟩, ⟨5⟩] : List Lit).destutter (· ≠ ·) = [⟨2⟩, ⟨5⟩] := by decide
  obtain ⟨⟨a₁, hdedup, -, h₁⟩, -, hassign, herase, hmissing⟩ := rewriting_exact hlits
  obtain ⟨a₂, htaken, h₂⟩ := hassign a 2 [⟨1⟩, ⟨3⟩] (by decide) (by decide)
  obtain ⟨a₃, herased, h₃⟩ := herase ⟨5⟩ (by decide)
  rw [hkept] at h₁ h₂
  exact ⟨⟨a₁, hdedup, h₁.lits, h₁.header, h₁.outside 5 (by decide), h₁.outside 6 (by decide)⟩,
    ⟨a₂, htaken, h₂.lits, h₂.header⟩, ⟨a₃, herased, h₃.lits⟩, hmissing ⟨1⟩ (by decide)⟩

end CnfSimp.Arena
