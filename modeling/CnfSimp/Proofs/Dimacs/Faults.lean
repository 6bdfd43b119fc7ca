import CnfSimp.Proofs.Dimacs.Coverage

/-!
# When reading faults

Room for the clauses that a header announces is asked for before anything is known of them. So a header can announce
more clauses than there can be room for, and no line behind it is looked at then.

* `Dimacs.Overcrowds before line`: the line is a header that announces too many clauses, behind those of the lines
  before.
* `Dimacs.readLine_fault_iff`, `Dimacs.readLines_fault_iff`: such a line makes reading fault, and nothing else does.
* `ofBytes_fault_iff`: a file faults exactly if it has such a line behind lines that are text and in order. Every other
  file is a formula, or is malformed in some line, or is not text.
* `ofBytes_overcrowded`: a file of one line that faults.
-/

namespace CnfSimp.Dimacs

open Text Problem

variable {line : List Char} {word : List Char} {lines done before : List (List Char)} {tokens tokens' : List Int}
  {rows : List (Option (List Char))} {r : Reading} {cause : Fault} {k : Nat}

/-- The line is a header that announces more clauses than there can be room for behind those of the lines before. -/
def Overcrowds (before : List (List Char)) (line : List Char) : Prop :=
  lineKind line = .header ∧
    ∃ vars count tokens, Announces line vars count ∧ Tokens before tokens ∧ ¬HasRoom tokens count

/-- From the given number on, every line may follow the lines before it. -/
def GrammaticalFrom (n : Nat) (lines : List (List Char)) : Prop := ∀ k, n ≤ k → ¬Violates lines k

theorem grammaticalFrom_zero : GrammaticalFrom 0 lines ↔ Grammatical lines :=
  forall_congr' fun k => forall_prop_of_true (Nat.zero_le k)

theorem grammaticalFrom_length (done : List (List Char)) : GrammaticalFrom done.length done := by
  rintro k hk ⟨line, hline, _⟩
  rw [List.getElem?_eq_none hk] at hline
  cases hline

/-- The first of the lines, and those behind it. -/
theorem grammaticalFrom_cons : GrammaticalFrom done.length (done ++ line :: before) ↔
    InOrder done line ∧ GrammaticalFrom (done ++ [line]).length (done ++ [line] ++ before) := by
  have hlines : done ++ [line] ++ before = done ++ line :: before := by simp
  have hlength : (done ++ [line]).length = done.length + 1 := by simp
  rw [hlines, hlength]
  constructor
  · intro h
    refine ⟨?_, fun k hk => h k (Nat.le_of_succ_le hk)⟩
    by_contra hn
    exact h _ (Nat.le_refl _) (violates_length.2 hn)
  · rintro ⟨hin, h⟩ k hk
    rcases Nat.eq_or_lt_of_le hk with rfl | hlt
    · exact fun hv => violates_length.1 hv hin
    · exact h k hlt

/-- The words of some lines are at most one list of integers. -/
theorem Tokens.unique (h : Tokens lines tokens) (h' : Tokens lines tokens') : tokens = tokens' := by
  have hword : Relator.RightUnique IsLiteral := fun word i j hi hj =>
    Except.ok.inj ((readSigned_ok_iff.2 hi.1).symm.trans (readSigned_ok_iff.2 hj.1))
  exact hword.forall₂ h h'

/-! ## One line -/

/-- A line makes reading fault exactly if it is a header that announces too many clauses. -/
theorem readLine_fault_iff (h : ReadsTo done r) : readLine r (words line) = .ok (.error cause) ↔
    cause = .capacityOverflow ∧ Overcrowds done line := by
  constructor
  · intro hread
    rcases readLine_step h line with ⟨_, flaw, hline⟩ | ⟨_, r', hline, _⟩ | ⟨hkind, hcount, hline⟩
    · cases hline.symm.trans hread
    · cases hline.symm.trans hread
    · cases hline.symm.trans hread
      exact ⟨rfl, hkind, hcount⟩
  · rintro ⟨rfl, hkind, vars, count, tokens, ha, ht, hn⟩
    obtain ⟨before, after, earlier, later, _, rfl, hr⟩ := h
    have hread : r.readHeader (words line) = _ := readHeader_of_announces ha hr.size
    rw [hr.whole.unique ht, if_neg hn] at hread
    rw [readLine_eq, hkind]
    exact hread

/-! ## All lines -/

/-- Reading rows faults exactly if there is such a header behind rows that are text and in order. -/
theorem readLines_fault_iff (h : ReadsTo done r) : readLines k r rows = .error (.fault cause) ↔
    cause = .capacityOverflow ∧ ∃ before line rest, rows = before.map some ++ some line :: rest ∧
      GrammaticalFrom done.length (done ++ before) ∧ Overcrowds (done ++ before) line := by
  induction rows generalizing k done r with
  | nil => simp [readLines]
  | cons row rows ih =>
    -- The header is in the first row, or behind it.
    have hsplit (P : List (List Char) → List Char → Prop) :
        (∃ before line rest, row :: rows = before.map some ++ some line :: rest ∧ P before line) ↔
          ∃ first, row = some first ∧ (P [] first ∨
            ∃ before line rest, rows = before.map some ++ some line :: rest ∧ P (first :: before) line) := by
      constructor
      · rintro ⟨_ | ⟨first, before⟩, line, rest, heq, hP⟩
        · cases heq
          exact ⟨line, rfl, Or.inl hP⟩
        · cases heq
          exact ⟨first, rfl, Or.inr ⟨before, line, rest, rfl, hP⟩⟩
      · rintro ⟨first, rfl, hP | ⟨before, line, rest, rfl, hP⟩⟩
        · exact ⟨[], first, rows, rfl, hP⟩
        · exact ⟨first :: before, line, rest, rfl, hP⟩
    rw [hsplit]
    cases row with
    | none => simp [readLines]
    | some first =>
      simp only [Option.some.injEq, exists_eq_left', List.append_nil, grammaticalFrom_cons]
      rw [and_iff_right (grammaticalFrom_length done), readLines]
      have hfault (cause : Fault) : readLine r (words first) = .ok (.error cause) ↔
          cause = .capacityOverflow ∧ Overcrowds done first := readLine_fault_iff h
      rcases readLine_step h first with ⟨hout, flaw, hline⟩ | ⟨hin, r', hline, hr'⟩ | ⟨hkind, hcount, hline⟩
      · have hnot : ¬Overcrowds done first := fun ho => by cases hline.symm.trans ((hfault _).2 ⟨rfl, ho⟩)
        simp [hline, hnot, hout]
      · have hnot : ¬Overcrowds done first := fun ho => by cases hline.symm.trans ((hfault _).2 ⟨rfl, ho⟩)
        simp only [hline, ih hr', hnot, hin, false_or, true_and, List.append_assoc, List.singleton_append]
      · have hover : Overcrowds done first := ⟨hkind, hcount⟩
        simp [hline, hover, eq_comm]

end CnfSimp.Dimacs

namespace CnfSimp

open Dimacs Problem

/-- A file faults exactly if some line is a header that announces more clauses than there can be room for, and all lines
before it are text and in order. The fault is that of the request for room. -/
theorem ofBytes_fault_iff {bytes : ByteArray} {cause : Fault} : ofBytes bytes = .error (.fault cause) ↔
    cause = .capacityOverflow ∧ ∃ before line rest, rowsOf bytes = before.map some ++ some line :: rest ∧
      Grammatical before ∧ Overcrowds before line := by
  have hrows : readLines 1 .start (rowsOf bytes) = .error (.fault cause) ↔ _ := readLines_fault_iff readsTo_start
  simp only [List.nil_append, List.length_nil, grammaticalFrom_zero] at hrows
  rw [ofBytes_eq, ofLines, ← hrows]
  cases readLines 1 .start (rowsOf bytes) with
  | ok r =>
    refine iff_of_false (fun h => ?_) fun h => ?_
    · cases h
    · cases h
  | error e => exact ⟨fun h => congrArg _ (Except.error.inj h), fun h => congrArg _ (Except.error.inj h)⟩

/-- A header that announces `2 ^ 63 - 1` clauses, and nothing else: there is neither a formula nor an error about a
line, but the fault of a request for more room than there can be. -/
theorem ofBytes_overcrowded :
    ofBytes "p cnf 1 9223372036854775807\n".toUTF8 = .error (.fault .capacityOverflow) := by
  decide +kernel

end CnfSimp
