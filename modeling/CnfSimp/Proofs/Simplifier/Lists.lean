import CnfSimp.Proofs.Simplifier.Dimacs

/-!
# The occurrence lists of a run

* `Simplifier.RoundReaches`: the states of a round in which the lists have just been built or reduced. Such a state is
  `Simplifier.Valid` (`Simplifier.RoundReaches.valid`), and a round that answers ends behind the last of them
  (`Simplifier.round_reaches`).
* `Simplifier.PhasesReach`, `Simplifier.RunReaches`: the states in which the rounds of phases and of a run begin. They
  are well-formed (`Simplifier.PhasesReach.wf`), and the last round of phases that answer begins in one of them
  (`Simplifier.runPhases_reaches`).
* `run_lists_valid`: in every round of a run the lists hold live clauses with their literals, in order, and those of an
  elected variable that is not eliminated hold all of them.
-/

namespace CnfSimp

namespace Simplifier

variable {s t u : Simplifier} {n k : Nat} {xs : List Nat} {kept : Nat → Prop} {r : Reconstruction} {l : Lit}
  {ran : Bool}

/-! ## Rounds -/

/-- What a round has done to its lists. -/
inductive Stage
  | built
  | eliminated
  | subsumed
  | blocked
  | hidden

/-- A round from the first state has just built its lists in the last, or reduced them behind a pass. The stack is the
one that elimination has left. -/
inductive RoundReaches (s : Simplifier) : Stage → Reconstruction → Simplifier → Prop
  | built {m : Nat} {t : Simplifier} : s.prepare = .ok (m, t) → RoundReaches s .built t.removed t
  | rebuilt {m clauses lits : Nat} {t u : Simplifier} :
      s.prepare = .ok (m, t) → ¬m < toWord t.options.minCandidates → t.options.eliminate →
      resolventRoom t.options t.arena t.table t.work = .ok (clauses, lits) → t.reserve clauses lits = .ok u →
      RoundReaches s .built u.removed u
  | eliminated {m : Nat} {t u : Simplifier} :
      s.prepare = .ok (m, t) → ¬m < toWord t.options.minCandidates →
      t.runIf t.options.eliminate runEliminate = .ok u → RoundReaches s .eliminated u.removed u
  | subsumed {r : Reconstruction} {t u : Simplifier} :
      RoundReaches s .eliminated r t → t.runIf t.options.subsumes runSubsume = .ok u → RoundReaches s .subsumed r u
  | blocked {r : Reconstruction} {t u : Simplifier} :
      RoundReaches s .subsumed r t → t.runIf t.options.blocks runBlocked = .ok u → RoundReaches s .blocked r u
  | hidden {r : Reconstruction} {t u : Simplifier} :
      RoundReaches s .blocked r t → t.runIf t.options.hides runHidden = .ok u → RoundReaches s .hidden r u

/-- A round that answers counts what is left behind its last pass. -/
theorem round_reaches (hrun : s.round = .ok (true, t)) : ∃ r u, s.RoundReaches .hidden r u ∧ u.count = .ok t := by
  unfold round at hrun
  obtain ⟨⟨m, s₁⟩, hprepare, hrun⟩ := bind_eq_ok_iff.1 hrun
  simp only at hrun
  split at hrun
  · cases hrun
  · next hm =>
    obtain ⟨s₂, heliminate, hrun⟩ := bind_eq_ok_iff.1 hrun
    obtain ⟨s₃, hsubsume, hrun⟩ := bind_eq_ok_iff.1 hrun
    obtain ⟨s₄, hblock, hrun⟩ := bind_eq_ok_iff.1 hrun
    obtain ⟨s₅, hhide, hrun⟩ := bind_eq_ok_iff.1 hrun
    obtain ⟨s₆, hcount, hrun⟩ := bind_eq_ok_iff.1 hrun
    cases hrun
    exact ⟨_, _, .hidden (.blocked (.subsumed (.eliminated hprepare hm heliminate) hsubsume) hblock) hhide, hcount⟩

/-- Wherever a round has just built or reduced its lists, those of the variables that elimination has left are
complete. -/
theorem RoundReaches.valid {stage : Stage} (hr : s.RoundReaches stage r u) (hn : n ≤ 2 ^ 31) (h : s.Wf n) :
    ∃ (xs : List Nat) (gone : List Removal), r = ⟨gone.reverse ++ s.removed.stack⟩ ∧
      u.Valid n xs fun x => ∀ g ∈ gone, g.witness.var ≠ x := by
  have hany (s : Simplifier) : Safe (fun _ => True) n s := Or.inl fun _ => trivial
  induction hr with
  | built hprepare =>
    obtain ⟨xs, _, _, hremoved, hfresh, _⟩ := (prepare_ends (E := fun _ => True) hn h).of_ok hprepare
    exact ⟨xs, [], by rw [hremoved]; rfl, hfresh.valid _⟩
  | rebuilt hprepare _ _ _ hreserve =>
    obtain ⟨xs, _, _, hremoved, hfresh, _⟩ := (prepare_ends (E := fun _ => True) hn h).of_ok hprepare
    obtain ⟨_, hfresh', _, hremoved', _⟩ :=
      (reserve_ends (E := fun _ => True) hfresh (Or.inl fun _ => trivial)).of_ok hreserve
    exact ⟨xs, [], by rw [hremoved', hremoved]; rfl, hfresh'.valid _⟩
  | eliminated hprepare _ heliminate =>
    obtain ⟨xs, _, _, hremoved, hfresh, _⟩ := (prepare_ends (E := fun _ => True) hn h).of_ok hprepare
    obtain ⟨_, gone, hstack, hvalid⟩ := (runIf_eliminate_ends hn (hany _) hfresh).of_ok heliminate
    exact ⟨xs, gone, hremoved ▸ hstack, hvalid⟩
  | subsumed _ hrun ih =>
    obtain ⟨xs, gone, hstack, hvalid⟩ := ih
    exact ⟨xs, gone, hstack, ((runIf_ends hvalid (runSubsume_ends hn (hany _) hvalid.toReady)).of_ok hrun).2⟩
  | blocked _ hrun ih =>
    obtain ⟨xs, gone, hstack, hvalid⟩ := ih
    exact ⟨xs, gone, hstack, ((runIf_ends hvalid (runBlocked_ends hn (hany _) hvalid.toReady)).of_ok hrun).2⟩
  | hidden _ hrun ih =>
    obtain ⟨xs, gone, hstack, hvalid⟩ := ih
    exact ⟨xs, gone, hstack, ((runIf_ends hvalid (runHidden_ends hn (hany _) hvalid.toReady)).of_ok hrun).2⟩

/-! ## Phases and runs -/

/-- Up to `k` phases from the first state begin a round in the last. -/
inductive PhasesReach : Nat → Simplifier → Simplifier → Prop
  | first (k : Nat) (s : Simplifier) : PhasesReach (k + 1) s s
  | again {k : Nat} {s t u : Simplifier} :
      s.roundAndCompact = .ok (true, t) →
      ¬(!t.options.repeatPhase ∨ s.numLits - t.numLits ≤ toWord t.options.repeatThreshold) →
      PhasesReach (k + 1) t u → PhasesReach (k + 1) s u
  | next {k heat phases : Nat} {s t u : Simplifier} :
      s.phase = .ok (true, t) → sum32 t.work.heat 1 = .ok heat → sum32 t.report.phases 1 = .ok phases →
      PhasesReach k { t with work.heat := heat, report.phases := phases } u → PhasesReach (k + 1) s u

/-- A run from the first state begins a round in the last. -/
def RunReaches (s u : Simplifier) : Prop :=
  ∃ t, s.count = .ok t ∧ PhasesReach t.options.phases.toNat { t with
    report.clausesBefore := t.work.tally.numClauses, report.litsBefore := t.work.tally.numLits } u

/-- The last round of a phase that answers. -/
theorem phase_reaches (hrun : s.phase = .ok (ran, t)) (k : Nat) :
    ∃ u, PhasesReach (k + 1) s u ∧ u.roundAndCompact = .ok (ran, t) := by
  fun_induction phase s with
  | case1 s f hround => cases hrun
  | case2 s t' hround =>
    cases hrun
    exact ⟨s, .first k s, hround⟩
  | case3 s t' hround hstop =>
    cases hrun
    exact ⟨s, .first k s, hround⟩
  | case4 s t' hround hagain ih =>
    obtain ⟨u, hreach, hlast⟩ := ih hrun
    exact ⟨u, .again hround hagain hreach, hlast⟩

/-- The last round of phases that answer, unless there are none to run. -/
theorem runPhases_reaches (hrun : runPhases k s = .ok t) : k = 0 ∧ t = s ∨ ∃ ran u v, PhasesReach k s u ∧
    u.roundAndCompact = .ok (ran, v) ∧ t = { v with work.heat := t.work.heat, report.phases := t.report.phases } := by
  induction k generalizing s with
  | zero =>
    cases hrun
    exact Or.inl ⟨rfl, rfl⟩
  | succ k ih =>
    unfold runPhases at hrun
    obtain ⟨⟨ran, s₁⟩, hphase, hrun⟩ := bind_eq_ok_iff.1 hrun
    obtain ⟨heat, hheat, hrun⟩ := bind_eq_ok_iff.1 hrun
    obtain ⟨u, hreach, hlast⟩ := phase_reaches hphase k
    cases ran with
    | false =>
      cases hrun
      exact Or.inr ⟨false, u, s₁, hreach, hlast, rfl⟩
    | true =>
      obtain ⟨phases, hphases, hrun⟩ := bind_eq_ok_iff.1 hrun
      rcases ih hrun with ⟨_, rfl⟩ | ⟨ran, u, v, hreach, hlast, heq⟩
      · exact Or.inr ⟨true, u, s₁, hreach, hlast, rfl⟩
      · exact Or.inr ⟨ran, u, v, .next hphase hheat hphases hreach, hlast, heq⟩

/-- Rounds begin in well-formed states, whose totals are right. -/
theorem PhasesReach.wf (hr : PhasesReach k s t) (hn : n ≤ 2 ^ 31) (h : s.Wf n) (hc : s.Counted) :
    t.Wf n ∧ t.Counted := by
  have hany (s : Simplifier) : Safe (fun _ => True) n s := Or.inl fun _ => trivial
  induction hr with
  | first => exact ⟨h, hc⟩
  | again hround _ _ ih =>
    obtain ⟨hrefines, hcounted, _⟩ := (roundAndCompact_ends hn (hany _) (Or.inl fun _ => trivial) h hc).of_ok hround
    exact ih hrefines.wf hcounted
  | @next _ heat phases _ _ _ hphase _ _ _ ih =>
    obtain ⟨hruns, _⟩ := (phase_ends hn (hany _) (Or.inl fun _ => trivial) h hc).of_ok hphase
    have hticked := hruns.tick heat phases
    exact ih hticked.wf hticked.counted

theorem RunReaches.wf (hr : s.RunReaches t) (hn : n ≤ 2 ^ 31) (h : s.Wf n) : t.Wf n := by
  obtain ⟨s₁, hcount, hreach⟩ := hr
  have hstart := Runs.of_count h hcount
  exact (hreach.wf hn hstart.wf hstart.counted).1

/-! ## Lists -/

/-- The lists of `n` variables are strictly ascending, and hold live clauses with their literals only. -/
def ListsLive (s : Simplifier) (n : Nat) : Prop :=
  ∃ live, s.arena.live = .ok live ∧ ∀ l : Lit, l.index < litSlots n → ∃ is, s.table.occurs l = .ok is ∧
    is.Pairwise (· < ·) ∧ ∀ i ∈ is, i ∈ live ∧ ∃ c, s.arena.lits i = .ok c ∧ l ∈ c

/-- The list of a literal holds every live clause with it. -/
def ListsAll (s : Simplifier) (l : Lit) : Prop :=
  ∃ live is, s.arena.live = .ok live ∧ s.table.occurs l = .ok is ∧
    ∀ i ∈ live, ∃ c, s.arena.lits i = .ok c ∧ (l ∈ c → i ∈ is)

theorem Valid.listsLive (h : s.Valid n xs kept) : s.ListsLive n := by
  refine ⟨_, h.arena.live_ok, fun l hl => ⟨_, h.table.wf.occurs_ok (h.size.symm ▸ hl), h.table.ascends _, ?_⟩⟩
  intro i hi
  have hlt := h.table.lt _ i hi
  have hal := h.alive _ i hi
  refine ⟨List.mem_filter.2 ⟨List.mem_range.2 hlt, hal⟩, _, h.arena.lits_ok hlt, ?_⟩
  exact h.table.mem l i hi _ (Arena.body_eq_some_iff.2 ⟨hal, rfl⟩)

theorem Valid.listsAll (h : s.Valid n xs kept) {x : Nat} (hx : x ∈ xs) (hk : kept x) (hl : l.var = x) :
    s.ListsAll l := by
  have hlt : l.index < s.table.size := h.size.symm ▸ Lit.index_lt_litSlots (hl ▸ h.below x hx)
  refine ⟨_, _, h.arena.live_ok, h.table.wf.occurs_ok hlt, fun i hi => ?_⟩
  obtain ⟨hi, hal⟩ := List.mem_filter.1 hi
  refine ⟨_, h.arena.lits_ok (List.mem_range.1 hi), fun hlc => ?_⟩
  exact h.complete x hx hk l hl i _ (Arena.body_eq_some_iff.2 ⟨hal, rfl⟩) hlc

end Simplifier

variable {a : Arena} {o : Options} {s s' t u : Simplifier} {stage : Simplifier.Stage} {r : Reconstruction}
  {clauses : List (List Int)} {n : Nat}

/-- Whatever the clauses and options, in every round of a first or a repeated run over clauses of the first `n`
variables: wherever the lists have just been built or reduced, they are strictly ascending and hold live clauses with
their literals only, and those of every elected variable for which elimination has put nothing on the stack in this
round hold all live clauses with its literals. -/
theorem run_lists_valid (hn : n ≤ 2 ^ 31) (hc : ∀ c ∈ clauses, ∀ i ∈ c, IsLit n i)
    (ha : Arena.ofDimacs clauses = .ok a) (hs : Simplifier.ofArena o a n = .ok s)
    (hruns : Relation.ReflTransGen (fun s t => s.run = .ok t) s s') (hround : s'.RunReaches t)
    (hlists : t.RoundReaches stage r u) :
    u.ListsLive n ∧ ∃ xs gone, u.work.candidateVars = .ok xs ∧ r.toList = t.removed.toList ++ gone ∧
      ∀ x ∈ xs, (∀ g ∈ gone, g.witness.var ≠ x) → ∀ l : Lit, l.var = x → u.ListsAll l := by
  obtain ⟨hwf, hord, hwithin, _⟩ := (Arena.ofDimacs_ends (E := fun _ => True) hn hc (Or.inl fun _ => trivial)).of_ok ha
  rw [Simplifier.ofArena_ok hwf hwithin, Except.ok.injEq] at hs
  subst hs
  have hstart := Simplifier.wf_start hwf hord hwithin o
  have hbegin := hround.wf hn (Simplifier.wf_of_runs hruns hn hstart)
  obtain ⟨xs, gone, hstack, hvalid⟩ := hlists.valid hn hbegin
  refine ⟨hvalid.listsLive, xs, gone, hvalid.candidateVars_ok hvalid.candidates, ?_, ?_⟩
  · rw [hstack]
    exact Reconstruction.toList_mk_reverse_append _ _
  · exact fun x hx hk l hl => hvalid.listsAll hx hk hl

/-- Of the two variables elected over these clauses, one is eliminated; a clause of the other is strengthened. -/
theorem run_lists_valid_five_clauses : ∃ a s t r u,
    Arena.ofDimacs [[1, 2], [-1, 2], [3, 4], [-3, 4, 5], [3, 5]] = .ok a ∧
    Simplifier.ofArena { subsume := true, resolventLimit := 2 } a 5 = .ok s ∧ s.RunReaches t ∧
    t.RoundReaches .subsumed r u ∧ r.toList = [⟨⟨0⟩, [⟨0⟩, ⟨2⟩]⟩, ⟨⟨1⟩, [⟨1⟩, ⟨2⟩]⟩] ∧ u.ListsLive 5 ∧
    ∀ l : Lit, l.var = 2 → u.ListsAll l := by
  have hprog : (do
      let a ← Arena.ofDimacs [[1, 2], [-1, 2], [3, 4], [-3, 4, 5], [3, 5]]
      let s ← Simplifier.ofArena { subsume := true, resolventLimit := 2 } a 5
      let s ← s.count
      let p ← Simplifier.prepare { s with
        report.clausesBefore := s.work.tally.numClauses, report.litsBefore := s.work.tally.numLits }
      let u ← p.2.runIf p.2.options.eliminate Simplifier.runEliminate
      let u' ← u.runIf u.options.subsumes Simplifier.runSubsume
      return (s.options.phases.toNat, decide (p.1 < toWord p.2.options.minCandidates), s.removed.toList,
        u.removed.toList, ← u'.work.candidateVars)) =
      .ok (2, false, [], [⟨⟨0⟩, [⟨0⟩, ⟨2⟩]⟩, ⟨⟨1⟩, [⟨1⟩, ⟨2⟩]⟩], [0, 2]) := by decide +kernel
  obtain ⟨a, ha, hprog⟩ := bind_eq_ok_iff.1 hprog
  obtain ⟨s, hs, hprog⟩ := bind_eq_ok_iff.1 hprog
  obtain ⟨s₁, hcount, hprog⟩ := bind_eq_ok_iff.1 hprog
  obtain ⟨⟨m, t⟩, hprepare, hprog⟩ := bind_eq_ok_iff.1 hprog
  obtain ⟨u, heliminate, hprog⟩ := bind_eq_ok_iff.1 hprog
  obtain ⟨u', hsubsume, hprog⟩ := bind_eq_ok_iff.1 hprog
  obtain ⟨xs, hxs, hprog⟩ := bind_eq_ok_iff.1 hprog
  simp only [pure, Except.pure, Except.ok.injEq, Prod.mk.injEq, decide_eq_false_iff_not] at hprog
  obtain ⟨hphases, hm, hbefore, hafter, rfl⟩ := hprog
  have hround : s.RunReaches { s₁ with
      report.clausesBefore := s₁.work.tally.numClauses, report.litsBefore := s₁.work.tally.numLits } :=
    ⟨s₁, hcount, hphases ▸ .first 1 _⟩
  have hlists := Simplifier.RoundReaches.subsumed (.eliminated hprepare hm heliminate) hsubsume
  obtain ⟨hlive, xs, gone, hxs', hstack, hall⟩ := run_lists_valid (by decide) (by decide) ha hs .refl hround hlists
  refine ⟨a, s, _, _, u', ha, hs, hround, hlists, hafter, hlive, hall 2 ?_ fun g hg => ?_⟩
  · rw [hxs, Except.ok.injEq] at hxs'
    rw [← hxs']
    decide
  · rw [hafter, hbefore, List.nil_append] at hstack
    rw [← hstack] at hg
    revert g
    decide

end CnfSimp
