import CnfSimp.Proofs.Simplifier.Run

/-!
# Simplifying clauses of signed integers

* `Satisfies`: an assignment satisfies clauses of signed integers, where a positive integer wants its variable true.
* `Simplifier.start`: the state in which a simplification begins.
* `run_preserves`: a run keeps exactly what a model needs. What is left follows from the input, and its models are
  turned into models of the input by the reconstruction stack.
-/

namespace CnfSimp

variable {E : Fault → Prop} {a : Arena} {o : Options} {s t : Simplifier} {v : Assignment} {clauses : List (List Int)}
  {i : Int} {n : Nat}

/-- The assignment makes the integer true. -/
def IntHolds (v : Assignment) (i : Int) : Prop := v (i.natAbs - 1) = decide (0 < i)

/-- The assignment makes an integer of every clause true. -/
def Satisfies (v : Assignment) (clauses : List (List Int)) : Prop := ∀ c ∈ clauses, ∃ i ∈ c, IntHolds v i

theorem holds_ofInt (hn : n ≤ 2 ^ 31) (h : IsLit n i) : (Lit.ofInt i).Holds v ↔ IntHolds v i := by
  have hsign : (!decide (i < 0)) = decide (0 < i) := by
    have := h.1
    rw [Bool.eq_iff_iff]
    simp only [Bool.not_eq_true', decide_eq_false_iff_not, decide_eq_true_eq]
    omega
  unfold Lit.Holds IntHolds
  rw [Lit.var_ofInt hn h, Lit.isNeg_ofInt hn h, hsign]

/-- The models of an arena of clauses. -/
theorem models_iff_satisfies (hn : n ≤ 2 ^ 31) (hc : ∀ c ∈ clauses, ∀ i ∈ c, IsLit n i)
    (hb : a.bodies = clauses.map clauseOfInts) : a.Models v ↔ Satisfies v clauses := by
  unfold Arena.Models Satisfies
  rw [hb, List.forall_mem_map]
  refine forall_congr' fun c => forall_congr' fun hmem => ?_
  rw [holds_clauseOfInts]
  exact exists_congr fun i => and_congr_right fun hi => holds_ofInt hn (hc c hmem i hi)

namespace Simplifier

/-- Where a simplification begins. -/
def start (o : Options) (a : Arena) (n : Nat) : Simplifier := ⟨o, a, .empty n, .empty n, .empty, {}, 0⟩

theorem allM_lits_ok (ha : a.Wf) (n : Nat) : (a.crefs.allM fun cref => do return (← a.lits cref).all (·.var < n)) =
    .ok (a.crefs.all fun cref => (a.text cref).all (·.var < n)) := by
  refine allM_ok fun i hi => ?_
  rw [ha.lits_ok (List.mem_range.1 hi)]
  rfl

theorem all_text_iff : (a.crefs.all fun cref => (a.text cref).all (·.var < n)) ↔ a.Within n := by
  simp [Arena.Within, Arena.crefs]

theorem ofArena_ok (ha : a.Wf) (ho : a.Within n) (o : Options) : ofArena o a n = .ok (start o a n) := by
  unfold ofArena
  rw [allM_lits_ok ha, all_text_iff.2 ho]
  rfl

/-- Simplifying clauses with more variables than are announced does not begin. -/
theorem ofArena_error (ha : a.Wf) (ho : ¬a.Within n) (o : Options) : ofArena o a n = .error .failedCheck := by
  unfold ofArena
  rw [allM_lits_ok ha, Bool.eq_false_iff.2 fun h => ho (all_text_iff.1 h)]
  rfl

theorem wf_start (ha : a.Wf) (hord : a.Ordered) (ho : a.Within n) (o : Options) : (start o a n).Wf n where
  arena := ha
  ordered := hord
  within := ho
  work := WorkingSet.wf_empty n
  sized := WorkingSet.sized_empty n
  numVars := rfl
  size := by simp [start, Occurrences.empty, Occurrences.size]

/-- A simplification that begins does so in a well-formed state, with the given clauses. -/
theorem start_of_ok (hn : n ≤ 2 ^ 31) (hc : ∀ c ∈ clauses, ∀ i ∈ c, IsLit n i) (ha : Arena.ofDimacs clauses = .ok a)
    (hs : ofArena o a n = .ok s) : s = start o a n ∧ s.Wf n ∧ s.arena.bodies = clauses.map clauseOfInts := by
  obtain ⟨hwf, hord, hwithin, hbodies⟩ :=
    (Arena.ofDimacs_ends (E := fun _ => True) hn hc (Or.inl fun _ => trivial)).of_ok ha
  rw [ofArena_ok hwf hwithin, Except.ok.injEq] at hs
  subst hs
  exact ⟨rfl, wf_start hwf hord hwithin o, hbodies⟩

theorem units_start (o : Options) (a : Arena) (n : Nat) : (start o a n).work.units.contents = [] :=
  Bounded.contents_of_rawLen rfl

end Simplifier

/-- Whatever the clauses and options: when a run over clauses of the first `n` variables has an answer, every assignment
that satisfies the clauses satisfies the clauses left and the unit literals; reconstruction turns every model of these
into one of the clauses; and so there is a model of the former if and only if there is one of the latter. -/
theorem run_preserves (hn : n ≤ 2 ^ 31) (hc : ∀ c ∈ clauses, ∀ i ∈ c, IsLit n i) (ha : Arena.ofDimacs clauses = .ok a)
    (hs : Simplifier.ofArena o a n = .ok s) (ht : s.run = .ok t) :
    ∃ left units, t.arena.mapLive (fun _ c => c.lits) = .ok left ∧ t.work.unitLits = .ok units ∧
      (∀ v, Satisfies v clauses → (∀ c ∈ left, Holds v c) ∧ ∀ l ∈ units, l.Holds v) ∧
      (∀ model : Array Bool, model.size = n → (∀ c ∈ left, Holds (assignment model) c) →
        (∀ l ∈ units, l.Holds (assignment model)) → ∃ model', t.removed.extend.run? model = .ok ((), model') ∧
          model'.size = n ∧ Satisfies (assignment model') clauses) ∧
      ((∃ v, Satisfies v clauses) ↔ ∃ v, (∀ c ∈ left, Holds v c) ∧ ∀ l ∈ units, l.Holds v) := by
  obtain ⟨hwf, hord, hwithin, hbodies⟩ :=
    (Arena.ofDimacs_ends (E := fun _ => True) hn hc (Or.inl fun _ => trivial)).of_ok ha
  rw [Simplifier.ofArena_ok hwf hwithin, Except.ok.injEq] at hs
  subst hs
  have hfin := (Simplifier.run_ends (E := fun _ => True) hn (Or.inl fun _ => trivial) rfl (Or.inl fun _ => trivial)
    (Simplifier.wf_start hwf hord hwithin o)).of_ok ht
  have hmodels (v : Assignment) : a.Models v ↔ Satisfies v clauses := models_iff_satisfies hn hc hbodies
  obtain ⟨gone, hstack, hgone, hup⟩ := hfin.up
  obtain ⟨new, hunits, hnew⟩ := hfin.units
  rw [Simplifier.units_start, List.nil_append] at hunits
  have hdown (v : Assignment) (hv : Satisfies v clauses) :
      t.arena.Models v ∧ ∀ l ∈ t.work.units.contents, l.Holds v := by
    have hv := (hmodels v).2 hv
    exact ⟨hfin.down v hv, fun l hl => hnew l (hunits ▸ hl) v hv⟩
  refine ⟨t.arena.bodies, t.work.units.contents, hfin.wf.arena.mapLive_lits_ok, WorkingSet.unitLits_ok hfin.wf.work,
    hdown, fun model hsize hleft hus => ?_, ⟨fun ⟨v, hv⟩ => ⟨v, hdown v hv⟩, fun ⟨v, hleft, hus⟩ => ?_⟩⟩
  · obtain ⟨model', hrun, hsize', hmodel'⟩ := Reconstruction.run?_extend model (r := t.removed) fun g hg => by
      rw [hstack] at hg
      have hg : g ∈ gone := by simpa [Simplifier.start, Reconstruction.empty] using hg
      obtain ⟨hw, hlits⟩ := hgone g hg
      rw [hsize]
      exact ⟨hlits _ hw, hlits⟩
    have hlist : t.removed.toList = gone := by
      rw [hstack]
      simp [Simplifier.start, Reconstruction.empty, Reconstruction.toList]
    refine ⟨model', hrun, hsize'.trans hsize, (hmodels _).1 ?_⟩
    rw [hmodel', hlist]
    exact hup _ hleft hus
  · exact ⟨_, (hmodels _).1 (hup v hleft hus)⟩

/-- Three of five clauses are resolved away. -/
theorem run_preserves_five_clauses : ∃ a s t, Arena.ofDimacs [[1, 2], [-1, 3], [2, 4], [-2, 3], [4]] = .ok a ∧
    Simplifier.ofArena { minCandidates := 1, subsume := true } a 4 = .ok s ∧ s.run = .ok t ∧
    ∃ left units, t.arena.mapLive (fun _ c => c.lits) = .ok left ∧ t.work.unitLits = .ok units ∧
      ((∃ v, Satisfies v [[1, 2], [-1, 3], [2, 4], [-2, 3], [4]]) ↔
        ∃ v, (∀ c ∈ left, Holds v c) ∧ ∀ l ∈ units, l.Holds v) := by
  obtain ⟨t, ht⟩ := exists_ok_of_isOk (x := do
    let a ← Arena.ofDimacs [[1, 2], [-1, 3], [2, 4], [-2, 3], [4]]
    let s ← Simplifier.ofArena { minCandidates := 1, subsume := true } a 4
    s.run) (by decide +kernel)
  obtain ⟨a, ha, ht⟩ := bind_eq_ok_iff.1 ht
  obtain ⟨s, hs, ht⟩ := bind_eq_ok_iff.1 ht
  obtain ⟨left, units, hleft, hunits, _, _, hiff⟩ := run_preserves (by decide) (by decide) ha hs ht
  exact ⟨a, s, t, ha, hs, ht, left, units, hleft, hunits, hiff⟩

end CnfSimp
