import CnfSimp.Proofs.Dimacs.Grammar
import CnfSimp.Proofs.Simplifier.Dimacs
import CnfSimp.Proofs.Text.Encoding

/-!
# Whether the number of variables covers the clauses

Every literal raises the number of variables, and every header sets it anew. So a header takes back what the literals
before it have raised.

* `Problem.Covers`: no literal of the clauses is of a variable beyond those counted.
* `Dimacs.ofBytes_toUTF8`: reading a text is reading the file that holds it.
* `ofBytes_covers_iff`: the number of variables that is read, and the exact condition under which it covers the clauses;
  a simplification of the clauses begins under the same condition.
* `ofBytes_uncovered`: a file that is read and not covered.
-/

namespace CnfSimp

open Dimacs Text

/-- No literal is of a variable beyond those counted. -/
def Problem.Covers (p : Problem) : Prop := ∀ c ∈ p.clauses, ∀ l ∈ c, l.natAbs ≤ p.numVars

instance (p : Problem) : Decidable p.Covers :=
  inferInstanceAs (Decidable (∀ c ∈ p.clauses, ∀ l ∈ c, l.natAbs ≤ p.numVars))

namespace Dimacs

variable {word : List Char} {lines : List (List Char)} {tokens : List Int} {i : Int} {n : Nat}

/-- The rows of a file, with the characters of those that are text. -/
def rowsOf (bytes : ByteArray) : List (Option (List Char)) :=
  (bytes.toList.splitOn 10).map fun row => (String.fromUTF8? ⟨row.toArray⟩).map String.toList

theorem ofBytes_eq (bytes : ByteArray) : Problem.ofBytes bytes = Problem.ofLines (rowsOf bytes) := by
  rw [Problem.ofBytes, splitWhere_eq_splitOnP, rowsOf, List.splitOn_eq_splitOnP]

/-- A text is read as the file that holds it. -/
theorem ofBytes_toUTF8 (text : String) : Problem.ofBytes text.toUTF8 = Problem.ofText text := by
  rw [ofBytes_eq, ofText_eq, rowsOf, linesOf, splitOn_toUTF8]

/-- The clauses have the integers other than zero. -/
theorem mem_clausesOf : (∃ c ∈ clausesOf tokens, i ∈ c) ↔ i ∈ tokens ∧ i ≠ 0 := by
  have hparts : (∃ part ∈ tokens.splitOnP (· == 0), i ∈ part) ↔ i ∈ tokens ∧ ¬(i == 0) := mem_splitOnP
  rw [← List.splitOn_eq_splitOnP, beq_iff_eq] at hparts
  rw [← hparts, clausesOf]
  split
  · next hlast =>
    obtain ⟨parts, hp⟩ := List.getLast?_eq_some_iff.1 hlast
    rw [hp, List.dropLast_concat]
    simp
  · rfl

theorem isLit_of_isLiteral (h : IsLiteral word i) (hi : i ≠ 0) : IsLit (2 ^ 31) i := by
  obtain ⟨⟨_, hlow, hhigh⟩, hmin⟩ := h
  refine ⟨hi, ?_, hhigh⟩
  change -2 ^ 31 ≤ i at hlow
  change i < 2 ^ 31 at hhigh
  omega

theorem isLit_of_mem (h : Tokens lines tokens) : ∀ c ∈ clausesOf tokens, ∀ i ∈ c, IsLit (2 ^ 31) i := by
  intro c hc i hi
  obtain ⟨hmem, hne⟩ := mem_clausesOf.1 ⟨c, hc, hi⟩
  have hflip : List.Forall₂ (flip IsLiteral) tokens (literalWords lines) := .flip h
  obtain ⟨word, hword⟩ := exists_of_forall₂ hflip i hmem
  exact isLit_of_isLiteral hword hne

theorem foldl_max_le {bound : Nat} : tokens.foldl (fun n i => max n i.natAbs) n ≤ bound ↔
    n ≤ bound ∧ ∀ i ∈ tokens, i.natAbs ≤ bound := by
  induction tokens generalizing n with
  | nil => simp
  | cons i tokens ih => rw [List.foldl_cons, ih, List.forall_mem_cons, Nat.max_le, and_assoc]

/-- What the literals of a file need, its last header aside. -/
theorem covers_iff {p : Problem} {earlier later : List Int} {vars : Nat} (hc : p.clauses = clausesOf (earlier ++ later))
    (hv : p.numVars = later.foldl (fun n i => max n i.natAbs) vars) :
    p.Covers ↔ ∀ i ∈ earlier, i.natAbs ≤ p.numVars := by
  have hlater : vars ≤ p.numVars ∧ ∀ i ∈ later, i.natAbs ≤ p.numVars := foldl_max_le.1 (Nat.le_of_eq hv.symm)
  constructor
  · intro h i hi
    by_cases hne : i = 0
    · subst hne
      exact Nat.zero_le _
    · obtain ⟨c, hmem, hic⟩ := mem_clausesOf.2 ⟨List.mem_append_left later hi, hne⟩
      exact h c (hc ▸ hmem) i hic
  · intro h c hmem i hi
    obtain ⟨hi, _⟩ := mem_clausesOf.1 ⟨c, hc ▸ hmem, hi⟩
    rcases List.mem_append.1 hi with hi | hi
    · exact h i hi
    · exact hlater.2 i hi

/-- The arena of the clauses that a file holds has only variables that are counted, exactly if they are covered. -/
theorem within_iff {p : Problem} {a : Arena} (hlit : ∀ c ∈ p.clauses, ∀ i ∈ c, IsLit (2 ^ 31) i)
    (ha : Arena.ofDimacs p.clauses = .ok a) : a.Wf ∧ (a.Within p.numVars ↔ p.Covers) := by
  obtain ⟨hwf, _, _, hbodies⟩ :=
    (Arena.ofDimacs_ends (E := fun _ => True) (Nat.le_refl _) hlit (Or.inl fun _ => trivial)).of_ok ha
  refine ⟨hwf, fun hw c hc i hi => ?_, fun hcov => ?_⟩
  · have hmem : clauseOfInts c ∈ a.bodies := hbodies ▸ List.mem_map_of_mem hc
    obtain ⟨j, hj⟩ := Arena.mem_bodies.1 hmem
    have hvar := hw j (Arena.lt_of_body hj) (Lit.ofInt i) (Arena.text_of_body hj ▸ mem_clauseOfInts.2 ⟨i, hi, rfl⟩)
    rw [Lit.var_ofInt (Nat.le_refl _) (hlit c hc i hi)] at hvar
    omega
  · have hmin : ∀ c ∈ p.clauses, ∀ i ∈ c, IsLit (min p.numVars (2 ^ 31)) i := fun c hc i hi =>
      ⟨(hlit c hc i hi).1, Nat.le_min.2 ⟨hcov c hc i hi, (hlit c hc i hi).2.1⟩, (hlit c hc i hi).2.2⟩
    obtain ⟨_, _, hwithin, _⟩ :=
      (Arena.ofDimacs_ends (E := fun _ => True) (Nat.min_le_right _ _) hmin (Or.inl fun _ => trivial)).of_ok ha
    exact fun j hj l hl => Nat.lt_of_lt_of_le (hwithin j hj l hl) (Nat.min_le_left _ _)

end Dimacs

/-- What is read from a file that can be read. No clause has a zero. The number of variables is the one that the last
header announces, or the largest in a literal behind it, and so it covers the clauses exactly if it covers the literals
before that header. It always does where there is one header. The range check that a simplification begins with, on
whatever arena the clauses make, accepts the number exactly if it covers the clauses. -/
theorem ofBytes_covers_iff {bytes : ByteArray} {p : Problem} (h : Problem.ofBytes bytes = .ok p) :
    (∀ c ∈ p.clauses, ∀ l ∈ c, l ≠ 0) ∧
    (∃ before after earlier later vars, rowsOf bytes = (before ++ after).map some ∧ LastHeader before after vars ∧
      Tokens before earlier ∧ Tokens after later ∧ p.clauses = clausesOf (earlier ++ later) ∧
      p.numVars = later.foldl (fun n l => max n l.natAbs) vars ∧
      (p.Covers ↔ ∀ l ∈ earlier, l.natAbs ≤ p.numVars) ∧
      ((∀ line ∈ before, lineKind line ≠ .header) → p.Covers)) ∧
    ∀ o a, Arena.ofDimacs p.clauses = .ok a → Simplifier.ofArena o a p.numVars =
      if p.Covers then .ok (.start o a p.numVars) else .error .failedCheck := by
  rw [ofBytes_eq, Problem.ofLines] at h
  obtain ⟨r, hread, hp⟩ := bind_eq_ok_iff.1 h
  obtain ⟨lines, hrows, before, after, earlier, later, vars, rfl, hr⟩ := readLines_ok readsTo_start hread
  have hclauses : p.clauses = clausesOf (earlier ++ later) := by
    cases hp
    exact clauses_finish hr.parts
  have hvars : p.numVars = later.foldl (fun n l => max n l.natAbs) vars := by
    cases hp
    exact hr.numVars
  have hlit : ∀ c ∈ p.clauses, ∀ i ∈ c, IsLit (2 ^ 31) i := hclauses ▸ isLit_of_mem hr.whole
  have hcovers := covers_iff hclauses hvars
  refine ⟨fun c hc l hl => (hlit c hc l hl).1, ?_, fun o a ha => ?_⟩
  · refine ⟨before, after, earlier, later, vars, hrows, hr.last, hr.early, hr.late, hclauses, hvars, hcovers, ?_⟩
    intro hno
    exact hcovers.2 (by simp [hr.quiet hno])
  · obtain ⟨hwf, hwithin⟩ := within_iff hlit ha
    split
    · next hcov => exact Simplifier.ofArena_ok hwf (hwithin.2 hcov) o
    · next hcov => exact Simplifier.ofArena_error hwf (fun hw => hcov (hwithin.1 hw)) o

/-- Literals beyond the header raise the number of variables. -/
theorem ofBytes_covers_iff_two_clauses :
    Problem.ofBytes "p cnf 2 1\n1 -7 0\n4".toUTF8 = .ok ⟨7, [[1, -7], [4]]⟩ ∧
    ∃ a, Arena.ofDimacs [[1, -7], [4]] = .ok a ∧ Simplifier.ofArena {} a 7 = .ok (.start {} a 7) := by
  have hread : Problem.ofBytes "p cnf 2 1\n1 -7 0\n4".toUTF8 = .ok ⟨7, [[1, -7], [4]]⟩ := by decide +kernel
  obtain ⟨a, ha⟩ := exists_ok_of_isOk (x := Arena.ofDimacs [[1, -7], [4]]) (by decide +kernel)
  obtain ⟨_, _, hcheck⟩ := ofBytes_covers_iff hread
  exact ⟨hread, a, ha, (hcheck {} a ha).trans (if_pos (by decide))⟩

/-- A header behind the clauses takes the number of variables back to one, while the clause read before is of the fifth:
the literal is not covered, and the range check fails. -/
theorem ofBytes_uncovered :
    Problem.ofBytes "p cnf 5 1\n5 0\np cnf 1 1\n".toUTF8 = .ok ⟨1, [[5]]⟩ ∧ ¬(⟨1, [[5]]⟩ : Problem).Covers ∧
    ∃ a, Arena.ofDimacs [[5]] = .ok a ∧ Simplifier.ofArena {} a 1 = .error .failedCheck := by
  obtain ⟨a, ha⟩ := exists_ok_of_isOk (x := Arena.ofDimacs [[5]]) (by decide +kernel)
  refine ⟨by decide +kernel, by decide, a, ha, ?_⟩
  have hcheck : (Arena.ofDimacs [[5]] >>= fun a => Simplifier.ofArena {} a 1) = .error .failedCheck := by decide +kernel
  rwa [ha] at hcheck

end CnfSimp
