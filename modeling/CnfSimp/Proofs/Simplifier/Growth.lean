import CnfSimp.Proofs.Simplifier.Answers

/-!
# How far a run can make the formula grow

Elimination weighs the resolvents of a variable against its clauses list by list, so a clause with both literals of the
variable is weighed twice and goes once. Where there are tautologies, a run may leave more clauses than it began with.

* `tautologies`: the clauses with a literal and its negation. They make up what `Arena.mass` and `Arena.bulk` count
  beyond the clauses and the literals (`Arena.mass_eq`, `Arena.slack_eq`).
* `Simplifier.run_cases`: the parts of a run, and what it reports of them.
* `run_grows_by_tautologies`: together with the tautologies, neither the clauses nor the literals become more. By
  themselves they can: a tautology turns six clauses into seven (`run_grows`).
-/

namespace CnfSimp

variable {clauses : List (List Int)} {n : Nat}

/-- The clauses that have a literal and its negation. -/
def tautologies (cs : List (List Lit)) : List (List Lit) := cs.filter (Tautology ·)

theorem Arena.mass_eq (a : Arena) : a.mass = a.bodies.length + (tautologies a.bodies).length := by
  unfold mass total tautologies
  induction a.bodies with
  | nil => rfl
  | cons c cs ih =>
    rw [List.map_cons, List.sum_cons, ih, List.filter_cons]
    by_cases hc : Tautology c
    · simp [weight, hc]
      omega
    · simp [weight, hc]
      omega

theorem Arena.slack_eq (a : Arena) : a.slack = volume (tautologies a.bodies) := by
  unfold slack total tautologies
  induction a.bodies with
  | nil => rfl
  | cons c cs ih =>
    rw [List.map_cons, List.sum_cons, ih, List.filter_cons]
    by_cases hc : Tautology c
    · simp [weight, hc]
    · simp [weight, hc]

namespace Simplifier

variable {s t : Simplifier} {ran : Bool} {clauseCap litCap k : Nat}

/-! ## The totals from before a run -/

/-- The totals of the report from before the run. -/
def before (s : Simplifier) : Nat × Nat := (s.report.clausesBefore, s.report.litsBefore)

theorem count_before (h : s.count = .ok t) : t.before = s.before := by
  obtain ⟨tally, _, h⟩ := bind_eq_ok_iff.1 h
  cases h
  rfl

theorem reduce_before (h : s.reduce = .ok t) : t.before = s.before := by
  obtain ⟨⟨n, table⟩, _, h⟩ := bind_eq_ok_iff.1 h
  cases h
  rfl

theorem moveTo_before (h : s.moveTo clauseCap litCap = .ok t) : t.before = s.before := by
  obtain ⟨a, _, h⟩ := bind_eq_ok_iff.1 h
  obtain ⟨⟨_, a'⟩, _, h⟩ := bind_eq_ok_iff.1 h
  cases h
  rfl

theorem reserve_before (h : s.reserve clauseCap litCap = .ok t) : t.before = s.before := by
  unfold reserve at h
  split at h
  · cases h
    rfl
  · obtain ⟨s₁, hcount, h⟩ := bind_eq_ok_iff.1 h
    obtain ⟨clauses, _, h⟩ := bind_eq_ok_iff.1 h
    obtain ⟨lits, _, h⟩ := bind_eq_ok_iff.1 h
    obtain ⟨s₂, hmove, h⟩ := bind_eq_ok_iff.1 h
    obtain ⟨table, _, h⟩ := bind_eq_ok_iff.1 h
    cases h
    exact (moveTo_before hmove).trans (count_before hcount)

theorem compact_before (h : s.compact = .ok t) : t.before = s.before := by
  obtain ⟨compactions, _, h⟩ := bind_eq_ok_iff.1 h
  simp only at h
  split at h
  · exact (moveTo_before h).trans rfl
  · obtain ⟨⟨_, a⟩, _, h⟩ := bind_eq_ok_iff.1 h
    cases h
    rfl

theorem runEliminate_before (h : s.runEliminate = .ok t) : t.before = s.before := by
  obtain ⟨⟨clauses, lits⟩, _, h⟩ := bind_eq_ok_iff.1 h
  obtain ⟨s₁, hreserve, h⟩ := bind_eq_ok_iff.1 h
  obtain ⟨⟨n, a, w, r⟩, _, h⟩ := bind_eq_ok_iff.1 h
  obtain ⟨eliminated, _, h⟩ := bind_eq_ok_iff.1 h
  have hreserved := reserve_before hreserve
  exact (reduce_before h).trans hreserved

theorem runSubsume_before (h : s.runSubsume = .ok t) : t.before = s.before := by
  obtain ⟨⟨counts, a, table⟩, _, h⟩ := bind_eq_ok_iff.1 h
  obtain ⟨subsumed, _, h⟩ := bind_eq_ok_iff.1 h
  obtain ⟨strengthened, _, h⟩ := bind_eq_ok_iff.1 h
  exact (reduce_before h).trans rfl

theorem runBlocked_before (h : s.runBlocked = .ok t) : t.before = s.before := by
  obtain ⟨⟨n, a, r⟩, _, h⟩ := bind_eq_ok_iff.1 h
  obtain ⟨blocked, _, h⟩ := bind_eq_ok_iff.1 h
  exact (reduce_before h).trans rfl

theorem runHidden_before (h : s.runHidden = .ok t) : t.before = s.before := by
  obtain ⟨⟨n, a⟩, _, h⟩ := bind_eq_ok_iff.1 h
  obtain ⟨hidden, _, h⟩ := bind_eq_ok_iff.1 h
  exact (reduce_before h).trans rfl

theorem runIf_before {enabled : Bool} {pass : Simplifier → Except Fault Simplifier}
    (hpass : pass s = .ok t → t.before = s.before) (h : s.runIf enabled pass = .ok t) : t.before = s.before := by
  unfold runIf at h
  split at h
  · exact hpass h
  · cases h
    rfl

theorem prepare_before {m : Nat} (h : s.prepare = .ok (m, t)) : t.before = s.before := by
  obtain ⟨table, _, h⟩ := bind_eq_ok_iff.1 h
  obtain ⟨scores, _, h⟩ := bind_eq_ok_iff.1 h
  obtain ⟨⟨m, w⟩, _, h⟩ := bind_eq_ok_iff.1 h
  cases h
  rfl

theorem round_before (h : s.round = .ok (ran, t)) : t.before = s.before := by
  obtain ⟨⟨m, s₁⟩, hprepare, h⟩ := bind_eq_ok_iff.1 h
  simp only at h
  split at h
  · cases h
    exact prepare_before hprepare
  · obtain ⟨s₂, h₂, h⟩ := bind_eq_ok_iff.1 h
    obtain ⟨s₃, h₃, h⟩ := bind_eq_ok_iff.1 h
    obtain ⟨s₄, h₄, h⟩ := bind_eq_ok_iff.1 h
    obtain ⟨s₅, h₅, h⟩ := bind_eq_ok_iff.1 h
    obtain ⟨s₆, h₆, h⟩ := bind_eq_ok_iff.1 h
    cases h
    calc
      t.before = s₅.before := count_before h₆
      _ = s₄.before := runIf_before runHidden_before h₅
      _ = s₃.before := runIf_before runBlocked_before h₄
      _ = s₂.before := runIf_before runSubsume_before h₃
      _ = s₁.before := runIf_before runEliminate_before h₂
      _ = s.before := prepare_before hprepare

theorem roundAndCompact_before (h : s.roundAndCompact = .ok (ran, t)) : t.before = s.before := by
  obtain ⟨⟨ran', s₁⟩, hround, h⟩ := bind_eq_ok_iff.1 h
  cases ran' with
  | false =>
    cases h
    exact round_before hround
  | true =>
    obtain ⟨s₂, hcompact, h⟩ := bind_eq_ok_iff.1 h
    obtain ⟨rounds, _, h⟩ := bind_eq_ok_iff.1 h
    cases h
    exact (compact_before hcompact).trans (round_before hround)

theorem phase_before (h : s.phase = .ok (ran, t)) : t.before = s.before := by
  fun_induction phase s with
  | case1 s f hround => cases h
  | case2 s t' hround =>
    cases h
    exact roundAndCompact_before hround
  | case3 s t' hround hstop =>
    cases h
    exact roundAndCompact_before hround
  | case4 s t' hround hagain ih => exact (ih h).trans (roundAndCompact_before hround)

theorem runPhases_before (h : runPhases k s = .ok t) : t.before = s.before := by
  induction k generalizing s with
  | zero =>
    cases h
    rfl
  | succ k ih =>
    obtain ⟨⟨ran, s₁⟩, hphase, h⟩ := bind_eq_ok_iff.1 h
    have hkept := phase_before hphase
    obtain ⟨heat, _, h⟩ := bind_eq_ok_iff.1 h
    cases ran with
    | false =>
      cases h
      exact hkept
    | true =>
      obtain ⟨phases, _, h⟩ := bind_eq_ok_iff.1 h
      exact (ih h).trans hkept

/-! ## The parts of a run -/

/-- A run: phases, the collection of units, a last count, and a compaction in place. -/
theorem run_cases (hn : n ≤ 2 ^ 31) (h : s.Wf n) (hrun : s.run = .ok t) :
    ∃ u a w, Runs n s.options.phases.toNat s u ∧ Collects u.arena u.work a w ∧ t.arena.Compacted a.bodies ∧
      t.before = (s.arena.bodies.length, volume s.arena.bodies) ∧
      t.report.clausesAfter = a.bodies.length ∧ t.report.litsAfter = volume a.bodies := by
  obtain ⟨u, a, w, hst⟩ := run_stages hn h hrun
  obtain ⟨units, hreport⟩ := hst.report
  have hbodies := hst.compacted.bodies
  refine ⟨u, a, w, hst.runs, hst.collects, hst.compacted, ?_, ?_, ?_⟩
  · obtain ⟨s₁, hcount, hphases⟩ := bind_eq_ok_iff.1 hst.before
    obtain ⟨s₂, hcount₂, heq, _, hcounted⟩ := count_ok h
    rw [hcount₂, Except.ok.injEq] at hcount
    subst hcount
    have harena : s₂.arena = s.arena := by rw [heq]
    calc
      t.before = u.before := by
        unfold before
        rw [hreport]
      _ = (s₂.work.tally.numClauses, s₂.work.tally.numLits) := runPhases_before hphases
      _ = _ := by rw [hcounted.numClauses, hcounted.numLits, harena]
  · rw [hreport, ← hbodies]
    exact hst.counted.numClauses
  · rw [hreport, ← hbodies]
    exact hst.counted.numLits

end Simplifier

open Simplifier in
/-- What a run over clauses of the first `n` variables reports are the clauses and literals of its input and of what is
left. Neither number grows if the tautologies, or their literals, are added to it; so without tautologies in the input
neither number grows. Over inputs in range there is an answer unless the capacity for unit literals wraps around. -/
theorem run_grows_by_tautologies (hn : n ≤ 2 ^ 31) (hc : ∀ c ∈ clauses, ∀ i ∈ c, IsLit n i) :
    (∀ o a s t, Arena.ofDimacs clauses = .ok a → ofArena o a n = .ok s → s.run = .ok t →
      ∃ left, t.arena.mapLive (fun _ c => c.lits) = .ok left ∧
        t.report.clausesBefore = clauses.length ∧ t.report.litsBefore = volume (clauses.map clauseOfInts) ∧
        t.report.clausesAfter = left.length ∧ t.report.litsAfter = volume left ∧
        t.report.clausesAfter + (tautologies left).length ≤
          t.report.clausesBefore + (tautologies (clauses.map clauseOfInts)).length ∧
        t.report.litsAfter + volume (tautologies left) ≤
          t.report.litsBefore + volume (tautologies (clauses.map clauseOfInts)) ∧
        ((∀ c ∈ clauses, ¬Tautology (clauseOfInts c)) →
          t.report.clausesAfter ≤ t.report.clausesBefore ∧ t.report.litsAfter ≤ t.report.litsBefore)) ∧
    ∀ o, Simplifiable n o clauses → n < 2 ^ 31 - 1 →
      ∃ a s t, Arena.ofDimacs clauses = .ok a ∧ ofArena o a n = .ok s ∧ s.run = .ok t := by
  refine ⟨fun o a s t ha hs hrun => ?_, fun o h hlt => ?_⟩
  · obtain ⟨hwf, hord, hwithin, hbodies⟩ :=
      (Arena.ofDimacs_ends (E := fun _ => True) hn hc (Or.inl fun _ => trivial)).of_ok ha
    rw [ofArena_ok hwf hwithin, Except.ok.injEq] at hs
    subst hs
    obtain ⟨u, a', w, hruns, hcol, hcompacted, hbefore, hclauses, hlits⟩ :=
      run_cases hn (wf_start hwf hord hwithin o) hrun
    have hbodies : (start o a n).arena.bodies = clauses.map clauseOfInts := hbodies
    obtain ⟨hclauses₀, hlits₀⟩ := Prod.mk.inj hbefore
    rw [hbodies] at hclauses₀ hlits₀
    rw [List.length_map] at hclauses₀
    have hmass := Nat.le_trans hcol.trims.mass_le hruns.mass
    have hbulk := Nat.le_trans hcol.trims.bulk_le hruns.bulk
    rw [Arena.mass_eq, Arena.mass_eq, hbodies, List.length_map] at hmass
    rw [Arena.bulk_eq, Arena.bulk_eq, Arena.slack_eq, Arena.slack_eq, hbodies] at hbulk
    refine ⟨a'.bodies, ?_, hclauses₀, hlits₀, hclauses, hlits, by omega, by omega, fun hnone => ?_⟩
    · rw [hcompacted.wf.mapLive_lits_ok, hcompacted.bodies]
    · have hempty : tautologies (clauses.map clauseOfInts) = [] := by
        unfold tautologies
        simpa using hnone
      rw [hempty, List.length_nil] at hmass
      rw [hempty, volume_nil] at hbulk
      omega
  · obtain ⟨a, ha, hs, _, _, hends⟩ := h.run_ends (E := fun _ => False) hn (Or.inr hlt)
    obtain ⟨t, ht, _⟩ := hends.exists_ok fun _ => id
    exact ⟨a, _, t, ha, hs, ht⟩

open Simplifier in
/-- Without a tautology, two clauses stay two or become fewer. -/
theorem run_grows_by_tautologies_two_clauses : ∃ a s t, Arena.ofDimacs [[1, 2], [-1, 3]] = .ok a ∧
    ofArena { minCandidates := 1 } a 3 = .ok s ∧ s.run = .ok t ∧ t.report.clausesAfter ≤ t.report.clausesBefore ∧
    t.report.litsAfter ≤ t.report.litsBefore := by
  have hall := @run_grows_by_tautologies [[1, 2], [-1, 3]] 3 (by decide) (by decide)
  obtain ⟨a, s, t, ha, hs, ht⟩ := hall.2 { minCandidates := 1 } ⟨rfl, by decide, by decide, by decide⟩ (by decide)
  obtain ⟨_, _, _, _, _, _, _, _, hnone⟩ := hall.1 _ _ _ _ ha hs ht
  exact ⟨a, s, t, ha, hs, ht, hnone (by decide)⟩

open Simplifier in
/-- A variable is eliminated from six clauses of two literals, one of which has both of its literals. Four clauses go
and five resolvents of two literals come. -/
theorem run_grows :
    Simplifiable 3 { phases := 1, minCandidates := 1, posOccursLimit := 3, negOccursLimit := 2 }
      [[1, -2], [1, -2], [-1, -3], [1, -1], [-2, -3], [-2, -3]] ∧
    ∃ a s t, Arena.ofDimacs [[1, -2], [1, -2], [-1, -3], [1, -1], [-2, -3], [-2, -3]] = .ok a ∧
      ofArena { phases := 1, minCandidates := 1, posOccursLimit := 3, negOccursLimit := 2 } a 3 = .ok s ∧
      s.run = .ok t ∧ t.report.clausesBefore = 6 ∧ t.report.litsBefore = 12 ∧
      t.report.clausesAfter = 7 ∧ t.report.litsAfter = 14 := by
  refine ⟨⟨rfl, by decide, by decide, by decide⟩, ?_⟩
  obtain ⟨t, ht⟩ := exists_ok_of_isOk (x := do
    let a ← Arena.ofDimacs [[1, -2], [1, -2], [-1, -3], [1, -1], [-2, -3], [-2, -3]]
    let s ← ofArena { phases := 1, minCandidates := 1, posOccursLimit := 3, negOccursLimit := 2 } a 3
    let t ← s.run
    if (t.report.clausesBefore, t.report.litsBefore, t.report.clausesAfter, t.report.litsAfter) =
        (6, 12, 7, 14) then
      return t
    else
      throw .failedCheck) (by decide +kernel)
  obtain ⟨a, ha, ht⟩ := bind_eq_ok_iff.1 ht
  obtain ⟨s, hs, ht⟩ := bind_eq_ok_iff.1 ht
  obtain ⟨t, hrun, ht⟩ := bind_eq_ok_iff.1 ht
  split at ht
  · next hreport =>
    simp only [Prod.mk.injEq] at hreport
    exact ⟨a, s, t, ha, hs, hrun, hreport⟩
  · cases ht

end CnfSimp
