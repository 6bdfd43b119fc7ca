import CnfSimp.Proofs.Arena.Dimacs
import CnfSimp.Proofs.Pass.Units
import CnfSimp.Proofs.Simplifier.Round

/-!
# Runs

* `Simplifier.phase_ends`: a phase. A repetition removes literals, and what elimination may add to the formula is
  bounded by the literals of tautologies from the start, so the rounds of all phases are bounded by the phases and the
  literals.
* `Simplifier.beforeUnits`, `Simplifier.fromUnits`: the two parts of a run (`Simplifier.run_eq`).
* `Simplifier.Stages`: what a run goes through (`Simplifier.run_stages`), and `Simplifier.Finishes`: what that comes to
  (`Simplifier.run_ends`).
-/

namespace CnfSimp

namespace Simplifier

variable {E : Fault → Prop} {s t u : Simplifier} {n k m : Nat}

/-- What up to `k` phases do: every round beyond the first of a phase takes a literal. -/
structure Runs (n k : Nat) (s t : Simplifier) : Prop extends Refines n s t where
  counted : t.Counted
  rounds : t.report.rounds + t.arena.bulk ≤ s.report.rounds + s.arena.bulk + k
  compactions : t.compactions + t.arena.bulk ≤ s.compactions + s.arena.bulk + k

theorem Runs.refl (h : s.Wf n) (hc : s.Counted) : Runs n 0 s s :=
  ⟨.refl h, hc, Nat.le_refl _, Nat.le_refl _⟩

/-- A round. -/
theorem Runs.of_round (h : Refines n s t) (hc : t.Counted) (hrounds : t.report.rounds ≤ s.report.rounds + 1)
    (hcompactions : t.compactions ≤ s.compactions + 1) : Runs n 1 s t where
  toRefines := h
  counted := hc
  rounds := by
    have := h.bulk
    omega
  compactions := by
    have := h.bulk
    omega

theorem Runs.trans (h : Runs n k s t) (h' : Runs n m t u) : Runs n (k + m) s u where
  toRefines := h.toRefines.trans h'.toRefines
  counted := h'.counted
  rounds := by
    have := h.rounds
    have := h'.rounds
    omega
  compactions := by
    have := h.compactions
    have := h'.compactions
    omega

theorem Runs.mono (h : Runs n k s t) (hkm : k ≤ m) : Runs n m s t where
  toRefines := h.toRefines
  counted := h.counted
  rounds := Nat.le_trans h.rounds (Nat.add_le_add_left hkm _)
  compactions := Nat.le_trans h.compactions (Nat.add_le_add_left hkm _)

/-- The counters of rounds have room for `k` more phases. -/
structure Lasts (s : Simplifier) (k : Nat) : Prop where
  rounds : s.report.rounds + s.arena.bulk + k < 2 ^ 32
  compactions : s.compactions + s.arena.bulk + k < 2 ^ 32

/-- Phases leave as much room as there was, but for themselves. -/
theorem Lasts.runs (hl : s.Lasts (k + m)) (h : Runs n k s t) : t.Lasts m where
  rounds := by
    have := hl.rounds
    have := h.rounds
    omega
  compactions := by
    have := hl.compactions
    have := h.compactions
    omega

/-- A round and the compaction behind it. -/
theorem roundAndCompact_ends (hn : n ≤ 2 ^ 31) (hE : Safe E n s) (hl : (∀ f, E f) ∨ s.Lasts 1) (h : s.Wf n)
    (hc : s.Counted) : Ends E s.roundAndCompact fun r => Refines n s r.2 ∧ r.2.Counted ∧
      r.2.report.rounds = s.report.rounds + r.1.toNat ∧ r.2.compactions = s.compactions + r.1.toNat ∧
      r.2.report.phases = s.report.phases ∧ r.2.work.heat = s.work.heat := by
  unfold roundAndCompact
  refine (round_ends hn hE h hc).bind ?_
  rintro ⟨ran, s₁⟩ ⟨hpasses, hcounted⟩
  have hclock : (s₁.compactions, s₁.report.rounds, s₁.report.phases, s₁.work.heat) =
      (s.compactions, s.report.rounds, s.report.phases, s.work.heat) := hpasses.clock
  simp only [Prod.mk.injEq] at hclock
  obtain ⟨hcompactions, hrounds, hphases, hheat⟩ := hclock
  cases ran with
  | false => exact ⟨hpasses.toRefines, hcounted, hrounds, hcompactions, hphases, hheat⟩
  | true =>
    simp only [if_true]
    refine (compact_ends hpasses.wf hcounted (hl.imp_right fun hl => ?_)).bind ?_
    · have hroom := hl.compactions
      have hvolume := s₁.arena.bulk_eq
      have hbulk : s₁.arena.bulk ≤ s.arena.bulk := hpasses.bulk
      refine ⟨?_, ?_⟩
      · rw [hcompactions]
        omega
      · show volume s₁.arena.bodies < _
        omega
    rintro s₂ ⟨heq, hrefines, hcounted₂⟩
    have hrounds₂ : s₂.report.rounds = s.report.rounds := by rw [heq, ← hrounds]
    refine (ends_sum32 (hl.imp (fun hE => hE _) fun hl => ?_)).bind ?_
    · have := hl.rounds
      rw [hrounds₂]
      omega
    rintro _ rfl
    refine ⟨hpasses.toRefines.trans (hrefines.trans (.of_bodies ?_ rfl id rfl rfl rfl rfl rfl rfl)), hcounted₂,
      ?_, ?_, ?_, ?_⟩
    · have hwf := hrefines.wf
      exact ⟨hwf.arena, hwf.ordered, hwf.within, hwf.work, hwf.sized, hwf.numVars, hwf.size⟩
    · exact congrArg (· + 1) hrounds₂
    · show s₂.compactions = _
      rw [heq, hcompactions]
      rfl
    · show s₂.report.phases = _
      rw [heq, hphases]
    · show s₂.work.heat = _
      rw [heq, hheat]

/-- A round that is repeated has removed a literal. -/
theorem Counted.volume_lt {threshold : Nat} (hc : s.Counted) (hc' : t.Counted)
    (h : ¬(!t.options.repeatPhase ∨ s.numLits - t.numLits ≤ threshold)) :
    volume t.arena.bodies < volume s.arena.bodies := by
  rw [← hc.numLits, ← hc'.numLits]
  have hlt : threshold < s.numLits - t.numLits := Nat.lt_of_not_le (not_or.1 h).2
  unfold numLits at hlt
  omega

/-- A phase. -/
theorem phase_ends (hn : n ≤ 2 ^ 31) (hE : Safe E n s) (hl : (∀ f, E f) ∨ s.Lasts 1) (h : s.Wf n) (hc : s.Counted) :
    Ends E s.phase fun r => Runs n 1 s r.2 ∧ r.2.report.phases = s.report.phases ∧ r.2.work.heat = s.work.heat := by
  have hround {s t : Simplifier} {ran : Bool} (hE : Safe E n s) (hl : (∀ f, E f) ∨ s.Lasts 1) (h : s.Wf n)
      (hc : s.Counted) (hrun : s.roundAndCompact = .ok (ran, t)) : Refines n s t ∧ t.Counted ∧
        t.report.rounds = s.report.rounds + ran.toNat ∧ t.compactions = s.compactions + ran.toNat ∧
        t.report.phases = s.report.phases ∧ t.work.heat = s.work.heat :=
    (roundAndCompact_ends hn hE hl h hc).of_ok hrun
  fun_induction phase s with
  | case1 s f hrun => exact (roundAndCompact_ends hn hE hl h hc).of_error hrun
  | case2 s t hrun =>
    obtain ⟨hrefines, hcounted, hrounds, hcompactions, hphases, hheat⟩ := hround hE hl h hc hrun
    exact ⟨.of_round hrefines hcounted (Nat.le_succ_of_le (Nat.le_of_eq hrounds))
      (Nat.le_succ_of_le (Nat.le_of_eq hcompactions)), hphases, hheat⟩
  | case3 s t hrun hstop =>
    obtain ⟨hrefines, hcounted, hrounds, hcompactions, hphases, hheat⟩ := hround hE hl h hc hrun
    exact ⟨.of_round hrefines hcounted (Nat.le_of_eq hrounds) (Nat.le_of_eq hcompactions), hphases, hheat⟩
  | case4 s t hrun hagain ih =>
    obtain ⟨hrefines, hcounted, hrounds, hcompactions, hphases, hheat⟩ := hround hE hl h hc hrun
    simp only [Bool.toNat_true] at hrounds hcompactions
    -- The round has removed a literal, so the bound for the rest of the phase is that of the whole.
    have hless := hc.volume_lt hcounted hagain
    have hbulk := s.arena.bulk_eq
    have hbulk' := t.arena.bulk_eq
    have hslack := hrefines.slack
    refine (ih (hE.refines hrefines) (hl.imp_right fun hl => ?_) hrefines.wf hcounted).imp ?_
    · have := hl.rounds
      have := hl.compactions
      exact ⟨by omega, by omega⟩
    · rintro ⟨ran, u⟩ ⟨hruns, hphases', hheat'⟩
      have hrounds' : u.report.rounds + u.arena.bulk ≤ _ := hruns.rounds
      have hcompactions' : u.compactions + u.arena.bulk ≤ _ := hruns.compactions
      refine ⟨⟨hrefines.trans hruns.toRefines, hruns.counted, ?_, ?_⟩, hphases'.trans hphases, hheat'.trans hheat⟩
      · show u.report.rounds + u.arena.bulk ≤ _
        omega
      · show u.compactions + u.arena.bulk ≤ _
        omega

/-- The temperature and the number of phases do not matter. -/
theorem Runs.tick (h : Runs n k s t) (heat phases : Nat) :
    Runs n k s { t with work.heat := heat, report.phases := phases } where
  toRefines := by
    have hwf := h.wf
    refine h.toRefines.trans (.of_bodies ?_ rfl id rfl rfl rfl rfl rfl rfl)
    exact ⟨hwf.arena, hwf.ordered, hwf.within, ⟨hwf.work.candidates, hwf.work.units, hwf.work.nodup, hwf.work.marked⟩,
      ⟨hwf.sized.candidates, hwf.sized.units, hwf.sized.unitMarks, hwf.sized.elected, hwf.sized.seen, hwf.sized.below⟩,
      hwf.numVars, hwf.size⟩
  counted := h.counted
  rounds := h.rounds
  compactions := h.compactions

/-- A number of phases. -/
theorem runPhases_ends (hn : n ≤ 2 ^ 31) (hE : Safe E n s)
    (hl : (∀ f, E f) ∨ s.Lasts k ∧ s.work.heat + k < 2 ^ 32 ∧ s.report.phases + k < 2 ^ 32) (h : s.Wf n)
    (hc : s.Counted) : Ends E (runPhases k s) fun t => Runs n k s t := by
  induction k generalizing s with
  | zero => exact .refl h hc
  | succ k ih =>
    unfold runPhases
    refine (phase_ends hn hE (hl.imp_right fun hl => ?_) h hc).bind ?_
    · have := hl.1.rounds
      have := hl.1.compactions
      exact ⟨by omega, by omega⟩
    rintro ⟨ran, t⟩ ⟨hruns, hphases, hheat⟩
    simp only at hruns hphases hheat
    refine (ends_sum32 (hl.imp (fun hE => hE _) fun hl => ?_)).bind ?_
    · omega
    rintro _ rfl
    have hticked := hruns.tick (t.work.heat + 1) t.report.phases
    cases ran with
    | false => exact hticked.mono (Nat.le_add_left 1 k)
    | true =>
      simp only [if_true]
      refine (ends_sum32 (hl.imp (fun hE => hE _) fun hl => ?_)).bind ?_
      · show t.report.phases + 1 < _
        omega
      rintro _ rfl
      have hticked := hruns.tick (t.work.heat + 1) (t.report.phases + 1)
      rw [Nat.add_comm k 1] at hl ⊢
      refine (ih (hE.refines hticked.toRefines) (hl.imp_right fun hl => ⟨hl.1.runs hticked, ?_, ?_⟩) hticked.wf
        hticked.counted).imp fun u hu => hticked.trans hu
      · show t.work.heat + 1 + k < _
        omega
      · show t.report.phases + 1 + k < _
        omega

/-! ## Whole runs -/

/-- Collecting unit clauses. -/
theorem Wf.collected {a : Arena} {w : WorkingSet} (h : s.Wf n) (hcol : Collects s.arena s.work a w) (p : Report) :
    Wf { s with arena := a, work := w, report := p } n where
  arena := hcol.wf
  ordered := hcol.ordered h.ordered
  within := hcol.trims.within h.within
  work := hcol.gains.wf
  sized := hcol.gains.sized n h.sized fun _ ⟨_, c, hc, hl⟩ => h.within.below c hc _ hl
  numVars := h.numVars
  size := h.size

/-- A run begins by counting. -/
theorem Runs.of_count (h : s.Wf n) (hcount : s.count = .ok t) :
    Runs n 0 s { t with
      report.clausesBefore := t.work.tally.numClauses, report.litsBefore := t.work.tally.numLits } := by
  obtain ⟨t', hcount', heq, hrefines, hcounted⟩ := count_ok h
  rw [hcount', Except.ok.injEq] at hcount
  subst hcount
  have hwf := hrefines.wf
  have harena : t'.arena = s.arena := by rw [heq]
  refine ⟨hrefines.trans (.of_bodies ?_ rfl id rfl rfl rfl rfl rfl rfl), hcounted, Nat.le_of_eq ?_, Nat.le_of_eq ?_⟩
  · exact ⟨hwf.arena, hwf.ordered, hwf.within, hwf.work, hwf.sized, hwf.numVars, hwf.size⟩
  · show t'.report.rounds + t'.arena.bulk = _
    rw [harena, heq, Nat.add_zero]
  · show t'.compactions + t'.arena.bulk = _
    rw [harena, heq, Nat.add_zero]

/-- The part of a run that ends with its phases. -/
def beforeUnits (s : Simplifier) : Except Fault Simplifier := do
  let s ← s.count
  runPhases s.options.phases.toNat { s with
    report.clausesBefore := s.work.tally.numClauses, report.litsBefore := s.work.tally.numLits }

/-- The part of a run that begins with the collection of the unit clauses. -/
def fromUnits (s : Simplifier) : Except Fault Simplifier := do
  let (units, arena, work) ← collectUnits s.arena s.work
  let s ← count { s with arena, work, report.units := units }
  let ((), arena) ← Arena.shrink.run? s.arena
  let tally := s.work.tally
  let report := { s.report with
    clausesAfter := tally.numClauses, litsAfter := tally.numLits, unusedVars := tally.unusedVars }
  return { s with arena, report }

theorem run_eq (s : Simplifier) : s.run = s.beforeUnits >>= fromUnits := by
  unfold run beforeUnits
  rw [bind_assoc]
  rfl

theorem beforeUnits_ends (hn : n ≤ 2 ^ 31) (hE : Safe E n s) (hk : s.options.phases.toNat = k)
    (hl : (∀ f, E f) ∨ s.Lasts k ∧ s.work.heat + k < 2 ^ 32 ∧ s.report.phases + k < 2 ^ 32) (h : s.Wf n) :
    Ends E s.beforeUnits fun t => Runs n k s t := by
  unfold beforeUnits
  obtain ⟨s₁, hcount, heq, hrefines, _⟩ := count_ok h
  have hreport : s₁.report = s.report := by rw [heq]
  have hheat : s₁.work.heat = s.work.heat := by rw [heq]
  have hstart := Runs.of_count h hcount
  have hk : s₁.options.phases.toNat = k := by rw [hrefines.options, hk]
  simp only [hcount, ok_bind, hk]
  refine (runPhases_ends hn (hE.refines hstart.toRefines) (hl.imp_right fun hl => ⟨?_, ?_, ?_⟩) hstart.wf
    hstart.counted).imp fun t hphases => ?_
  · refine Lasts.runs ?_ hstart
    rw [Nat.zero_add]
    exact hl.1
  · show s₁.work.heat + k < _
    rw [hheat]
    exact hl.2.1
  · show s₁.report.phases + k < _
    rw [hreport]
    exact hl.2.2
  have hruns := hstart.trans hphases
  rwa [Nat.zero_add] at hruns

/-- The part of a run behind its phases: unit clauses are collected, which leads to `a` and `w`, and what is left is
counted and compacted in place. -/
structure Closes (n : Nat) (s : Simplifier) (a : Arena) (w : WorkingSet) (t : Simplifier) : Prop where
  collects : Collects s.arena s.work a w
  units : ∀ l, [l] ∈ s.arena.bodies → l ∈ w.units.contents
  noUnits : ∀ l, [l] ∉ a.bodies
  wf : t.Wf n
  compacted : t.arena.Compacted a.bodies
  signed : a.Signed → t.arena.Signed
  work : t.work = { w with tally := t.work.tally }
  removed : t.removed = s.removed
  counted : t.Counted
  report : ∃ units, t.report = { s.report with
    units, clausesAfter := t.work.tally.numClauses, litsAfter := t.work.tally.numLits,
    unusedVars := t.work.tally.unusedVars }

theorem fromUnits_ends (hE : Safe E n s) (h : s.Wf n) : Ends E s.fromUnits fun t => ∃ a w, Closes n s a w t := by
  unfold fromUnits
  refine (collectUnits_ends h.arena h.work (hE.imp_right fun hE => ⟨h.sized, h.within.below, hE.1⟩)).bind ?_
  rintro ⟨units, a, w⟩ ⟨hcol, hunits, hnone⟩
  obtain ⟨s₁, hcount, heq, hrefines, hcounted⟩ := count_ok (h.collected hcol { s.report with units })
  have hwf := hrefines.wf
  obtain ⟨a', hshrink, hcompacted, hsigned, _⟩ := Arena.shrink_ok hwf.arena hwf.ordered
  simp only [hcount, hshrink, ok_bind]
  have hwf' := hwf.compacted hcompacted
  have harena : s₁.arena = a := by rw [heq]
  have hreport : s₁.report = { s.report with units } := by rw [heq]
  refine ⟨a, w, hcol, hunits, hnone,
    ⟨hwf'.arena, hwf'.ordered, hwf'.within, hwf'.work, hwf'.sized, hwf'.numVars, hwf'.size⟩, harena ▸ hcompacted,
    harena ▸ hsigned, ?_, ?_, hcounted.congr hcompacted.bodies, units, by simp only [hreport]⟩
  · show s₁.work = _
    rw [heq]
  · show s₁.removed = _
    rw [heq]

/-- The stages of a run: the phases lead to `u`, and the rest to `t`. -/
structure Stages (n k : Nat) (s u : Simplifier) (a : Arena) (w : WorkingSet) (t : Simplifier) : Prop
    extends Closes n u a w t where
  before : s.beforeUnits = .ok u
  runs : Runs n k s u

/-- A run goes through its stages. -/
theorem run_stages_ends (hn : n ≤ 2 ^ 31) (hE : Safe E n s) (hk : s.options.phases.toNat = k)
    (hl : (∀ f, E f) ∨ s.Lasts k ∧ s.work.heat + k < 2 ^ 32 ∧ s.report.phases + k < 2 ^ 32) (h : s.Wf n) :
    Ends E s.run fun t => ∃ u a w, Stages n k s u a w t := by
  rw [run_eq]
  refine (beforeUnits_ends hn hE hk hl h).with_eq.bind fun u ⟨hbefore, hruns⟩ => ?_
  refine (fromUnits_ends (hE.refines hruns.toRefines) hruns.wf).imp fun t ⟨a, w, hcloses⟩ => ?_
  exact ⟨u, a, w, hcloses, hbefore, hruns⟩

/-- The stages of a run that answers. -/
theorem run_stages (hn : n ≤ 2 ^ 31) (h : s.Wf n) (hrun : s.run = .ok t) :
    ∃ u a w, Stages n s.options.phases.toNat s u a w t :=
  (run_stages_ends (E := fun _ => True) hn (Or.inl fun _ => trivial) rfl (Or.inl fun _ => trivial) h).of_ok hrun

/-- A run keeps the signatures right. -/
theorem Stages.signed_arena {a : Arena} {w : WorkingSet} (hst : Stages n k s u a w t) (hs : s.arena.Signed) :
    t.arena.Signed := by
  have hphases := hst.runs.signed hs
  have hcollected := hst.collects.trims.signed hphases
  exact hst.signed hcollected

/-- Runs leave a well-formed state, for the next run. -/
theorem wf_of_runs (hruns : Relation.ReflTransGen (fun s t => s.run = .ok t) s t) (hn : n ≤ 2 ^ 31) (h : s.Wf n) :
    t.Wf n := by
  induction hruns with
  | refl => exact h
  | tail _ hrun ih =>
    obtain ⟨_, _, _, hst⟩ := run_stages hn ih hrun
    exact hst.wf

/-- Runs keep the signatures right. -/
theorem signed_of_runs (hruns : Relation.ReflTransGen (fun s t => s.run = .ok t) s t) (hn : n ≤ 2 ^ 31) (h : s.Wf n)
    (hs : s.arena.Signed) : t.arena.Signed := by
  induction hruns with
  | refl => exact hs
  | tail hruns hrun ih =>
    obtain ⟨_, _, _, hst⟩ := run_stages hn (wf_of_runs hruns hn h) hrun
    exact hst.signed_arena ih

/-- What a run does. A model of what is left must make the unit literals true as well: the unit clauses are gone. -/
structure Finishes (n k : Nat) (s t : Simplifier) : Prop where
  wf : t.Wf n
  down : ∀ v, s.arena.Models v → t.arena.Models v
  up : ∃ gone, t.removed = ⟨gone.reverse ++ s.removed.stack⟩ ∧
    (∀ g ∈ gone, g.witness ∈ g.lits ∧ ∀ l ∈ g.lits, l.var < n) ∧
    ∀ v, t.arena.Models v → (∀ l ∈ t.work.units.contents, l.Holds v) → s.arena.Models (repairAll gone v)
  units : ∃ new, t.work.units.contents = s.work.units.contents ++ new ∧
    ∀ l ∈ new, ∀ v, s.arena.Models v → l.Holds v
  rounds : t.report.rounds + t.arena.bulk ≤ s.report.rounds + s.arena.bulk + k

/-- What the stages of a run come to. -/
theorem Stages.finishes {a : Arena} {w : WorkingSet} (h : Stages n k s u a w t) : Finishes n k s t := by
  have hcol := h.collects
  have hunits : t.work.units = w.units := by rw [h.work]
  have hsame : Preserves a t.arena [] := .of_bodies fun c => by rw [h.compacted.bodies]
  obtain ⟨gone, hstack, hpres, hmem⟩ := h.runs.gone
  refine ⟨h.wf, fun v hv => hsame.down v (hcol.down v (hpres.down v hv)),
    ⟨gone, h.removed.trans hstack, hmem, ?_⟩, ?_, ?_⟩
  · intro v hv hus
    rw [hunits] at hus
    exact hpres.up v (hcol.up v (hsame.up v hv) hus)
  · obtain ⟨new, hnew, htrue⟩ := h.runs.units
    obtain ⟨new', hnew', hyields⟩ := hcol.gains.contents
    refine ⟨new ++ new', by rw [hunits, hnew', hnew, List.append_assoc], fun l hl v hv => ?_⟩
    exact (List.mem_append.1 hl).elim (fun hl => htrue l hl v hv) fun hl => (hyields l hl).1 v (hpres.down v hv)
  · obtain ⟨units, hreport⟩ := h.report
    rw [hreport, Arena.bulk_congr h.compacted.bodies]
    have := h.runs.rounds
    have := hcol.trims.bulk_le
    show u.report.rounds + a.bulk ≤ _
    omega

/-- A run. -/
theorem run_ends (hn : n ≤ 2 ^ 31) (hE : Safe E n s) (hk : s.options.phases.toNat = k)
    (hl : (∀ f, E f) ∨ s.Lasts k ∧ s.work.heat + k < 2 ^ 32 ∧ s.report.phases + k < 2 ^ 32) (h : s.Wf n) :
    Ends E s.run fun t => Finishes n k s t :=
  (run_stages_ends hn hE hk hl h).imp fun _ ⟨_, _, _, hst⟩ => hst.finishes

end Simplifier

end CnfSimp
