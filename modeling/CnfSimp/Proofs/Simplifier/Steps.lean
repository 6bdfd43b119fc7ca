import CnfSimp.Proofs.Pass.Block
import CnfSimp.Proofs.Pass.Elect
import CnfSimp.Proofs.Pass.EliminateWeight
import CnfSimp.Proofs.Pass.Hidden
import CnfSimp.Proofs.Pass.Subsume
import CnfSimp.Proofs.Tally
import CnfSimp.Simplifier

/-!
# Steps of a simplification

* `Simplifier.Wf`: what holds between the steps of a simplification over a number of variables.
* `Simplifier.Refines`: what steps do to the formula. They preserve its models up to the clauses they move to the stack,
  they record unit literals that follow from it, and what they count they take from sums that never grow.
* `Simplifier.Safe`: every fault is allowed, or these sums leave room in the counters of the report.
* `Simplifier.reserve_ends`: making room for more clauses keeps the clauses that are there.
* `Simplifier.compact_ends`: so does compaction.
-/

namespace CnfSimp

/-- The number of clauses removed without resolution. -/
def Report.cleared (r : Report) : Nat := r.subsumed + r.blocked + r.hidden

namespace Arena

variable {a a' : Arena} {n : Nat}

section SameBodies

variable (h : a'.bodies = a.bodies)
include h

theorem total_congr (f : List Lit → Nat) : a'.total f = a.total f := by
  unfold total
  rw [h]

theorem mass_congr : a'.mass = a.mass := total_congr h _

theorem bulk_congr : a'.bulk = a.bulk := total_congr h _

theorem slack_congr : a'.slack = a.slack := total_congr h _

theorem spread_congr (n : Nat) : a'.spread n = a.spread n := by
  unfold spread occurs
  rw [total_congr h, h]

theorem eliminations_congr (limit : Nat) (xs : List Nat) : a'.eliminations limit xs = a.eliminations limit xs := by
  unfold eliminations elimination clausesWith
  rw [h]

theorem Apart.congr {x y : Nat} (ha : a.Apart x y) : a'.Apart x y := by
  unfold Apart
  rw [h]
  exact ha

end SameBodies

end Arena

namespace Simplifier

variable {E : Fault → Prop} {s t u : Simplifier} {n clauses lits : Nat}

/-- What holds between the steps of a simplification over `n` variables. -/
structure Wf (s : Simplifier) (n : Nat) : Prop where
  arena : s.arena.Wf
  ordered : s.arena.Ordered
  within : s.arena.Within n
  work : s.work.Wf
  sized : s.work.Sized n
  numVars : s.table.numVars = n
  size : s.table.size = litSlots n

/-- The totals are those of the arena. -/
def Counted (s : Simplifier) : Prop := s.work.tally.Counts s.arena

/-- What steps do: models of the formula stay models, a model of what is left is repaired for the clauses that are gone,
and new unit literals are true in all models. What the report counts is taken from sums over the live clauses. -/
structure Refines (n : Nat) (s t : Simplifier) : Prop where
  wf : t.Wf n
  options : t.options = s.options
  gone : ∃ gone, t.removed = ⟨gone.reverse ++ s.removed.stack⟩ ∧ Preserves s.arena t.arena gone ∧
    ∀ g ∈ gone, g.witness ∈ g.lits ∧ ∀ l ∈ g.lits, l.var < n
  units : ∃ new, t.work.units.contents = s.work.units.contents ++ new ∧
    ∀ l ∈ new, ∀ v, s.arena.Models v → l.Holds v
  mass : t.arena.mass ≤ s.arena.mass
  bulk : t.arena.bulk ≤ s.arena.bulk
  slack : t.arena.slack ≤ s.arena.slack
  strengthened : t.report.strengthened + t.arena.bulk ≤ s.report.strengthened + s.arena.bulk
  cleared : t.report.cleared + t.arena.mass ≤ s.report.cleared + s.arena.mass
  eliminated : t.report.eliminated + t.arena.spread n ≤ s.report.eliminated + s.arena.spread n
  signed : s.arena.Signed → t.arena.Signed

namespace Refines

/-- Steps that keep the clauses and their signatures. -/
theorem of_bodies (hwf : t.Wf n) (hb : t.arena.bodies = s.arena.bodies)
    (hsigned : s.arena.Signed → t.arena.Signed) (ho : t.options = s.options)
    (hr : t.removed = s.removed) (hu : t.work.units = s.work.units)
    (hstrengthened : t.report.strengthened = s.report.strengthened) (hcleared : t.report.cleared = s.report.cleared)
    (heliminated : t.report.eliminated = s.report.eliminated) : Refines n s t where
  wf := hwf
  options := ho
  gone := ⟨[], hr, .of_bodies fun c => by rw [hb], by simp⟩
  units := ⟨[], by rw [hu, List.append_nil], by simp⟩
  mass := Nat.le_of_eq (Arena.mass_congr hb)
  bulk := Nat.le_of_eq (Arena.bulk_congr hb)
  slack := Nat.le_of_eq (Arena.slack_congr hb)
  strengthened := Nat.le_of_eq (by rw [hstrengthened, Arena.bulk_congr hb])
  cleared := Nat.le_of_eq (by rw [hcleared, Arena.mass_congr hb])
  eliminated := Nat.le_of_eq (by rw [heliminated, Arena.spread_congr hb])
  signed := hsigned

theorem refl (h : s.Wf n) : Refines n s s := of_bodies h rfl id rfl rfl rfl rfl rfl rfl

theorem trans (h : Refines n s t) (h' : Refines n t u) : Refines n s u where
  wf := h'.wf
  options := h'.options.trans h.options
  gone := by
    obtain ⟨gone, hstack, hpres, hmem⟩ := h.gone
    obtain ⟨gone', hstack', hpres', hmem'⟩ := h'.gone
    refine ⟨gone ++ gone', by rw [hstack', hstack, List.reverse_append, List.append_assoc], hpres.trans hpres', ?_⟩
    intro g hg
    exact (List.mem_append.1 hg).elim (hmem g) (hmem' g)
  units := by
    obtain ⟨gone, _, hpres, _⟩ := h.gone
    obtain ⟨new, hcontents, hnew⟩ := h.units
    obtain ⟨new', hcontents', hnew'⟩ := h'.units
    refine ⟨new ++ new', by rw [hcontents', hcontents, List.append_assoc], fun l hl v hv => ?_⟩
    exact (List.mem_append.1 hl).elim (fun hl => hnew l hl v hv) fun hl => hnew' l hl v (hpres.down v hv)
  mass := Nat.le_trans h'.mass h.mass
  bulk := Nat.le_trans h'.bulk h.bulk
  slack := Nat.le_trans h'.slack h.slack
  strengthened := Nat.le_trans h'.strengthened h.strengthened
  cleared := Nat.le_trans h'.cleared h.cleared
  eliminated := Nat.le_trans h'.eliminated h.eliminated
  signed hs := h'.signed (h.signed hs)

end Refines

/-- The sums that the report counts from leave room in its counters. -/
structure Fits (s : Simplifier) (n : Nat) : Prop where
  room : 2 * s.arena.mass < 2 ^ 32
  strengthened : s.report.strengthened + s.arena.bulk < 2 ^ 32
  cleared : s.report.cleared + s.arena.mass < 2 ^ 32
  eliminated : s.report.eliminated + s.arena.spread n < 2 ^ 32

/-- Every fault is allowed, or none can occur but that of a unit list for too many variables. -/
def Safe (E : Fault → Prop) (n : Nat) (s : Simplifier) : Prop :=
  (∀ f, E f) ∨ (E .unitListOverflow ∨ n < 2 ^ 31 - 1) ∧ s.Fits n

/-- Steps leave as much room as there was. -/
theorem Safe.refines (hE : Safe E n s) (h : Refines n s t) : Safe E n t :=
  hE.imp_right fun ⟨hunits, hfits⟩ => ⟨hunits, {
    room := Nat.lt_of_le_of_lt (Nat.mul_le_mul_left 2 h.mass) hfits.room
    strengthened := Nat.lt_of_le_of_lt h.strengthened hfits.strengthened
    cleared := Nat.lt_of_le_of_lt h.cleared hfits.cleared
    eliminated := Nat.lt_of_le_of_lt h.eliminated hfits.eliminated }⟩

/-- What the room in the counters gives, unless overflow is allowed. -/
theorem Safe.overflow {P : Prop} (hE : Safe E n s) (h : s.Fits n → P) : E .overflow ∨ P :=
  hE.imp (fun hE => hE _) fun hfits => h hfits.2

/-! ## Counting and moving -/

/-- Counting changes the totals and nothing else. -/
theorem count_ok (h : s.Wf n) :
    ∃ t, s.count = .ok t ∧ t = { s with work.tally := t.work.tally } ∧ Refines n s t ∧ t.Counted := by
  obtain ⟨tally, hrun, hcounts, hseen⟩ := Tally.countAll_ok h.arena.readable h.within.below h.sized.seen
  refine ⟨{ s with work.tally := tally }, ?_, rfl, .of_bodies ?_ rfl id rfl rfl rfl rfl rfl rfl, hcounts⟩
  · unfold count
    rw [hrun]
    rfl
  · exact ⟨h.arena, h.ordered, h.within, ⟨h.work.candidates, h.work.units, h.work.nodup, h.work.marked⟩,
      ⟨h.sized.candidates, h.sized.units, h.sized.unitMarks, h.sized.elected, hseen, h.sized.below⟩, h.numVars, h.size⟩

/-- Moving the live clauses to an arena with room for them. -/
theorem moveTo_ends (h : s.Wf n) (hclauses : clauses < 2 ^ 32) (hlits : lits < 2 ^ 64)
    (hE : (∀ f, E f) ∨ lits < 2 ^ 61) (hc : s.arena.bodies.length ≤ clauses) (hl : volume s.arena.bodies ≤ lits) :
    Ends E (s.moveTo clauses lits) fun t => t = { s with arena := t.arena } ∧
      t.arena.Compacted s.arena.bodies ∧ (s.arena.Signed → t.arena.Signed) ∧ clauses ≤ t.arena.headers.size ∧
        lits ≤ t.arena.cells.size := by
  unfold moveTo
  refine (Arena.allocate_max_ends (hE.imp_right fun hlits => ⟨hclauses, hlits⟩)).bind ?_
  rintro a ⟨⟨ha, _⟩, hsize, hcap⟩
  have hsize := hsize hclauses
  have hcap := hcap hlits
  refine (Arena.compactFrom_ends h.arena ha.slots_lt ha.cells_lt (Or.inr ⟨by omega, by omega⟩)).bind ?_
  rintro ⟨_, a'⟩ ⟨hcompacted, hsigned, hsize', hcap'⟩
  have hsize' : a'.headers.size = max clauses 1 := hsize'.trans hsize
  have hcap' : a'.cells.size = max lits 1 := hcap'.trans hcap
  refine ⟨rfl, hcompacted, hsigned, ?_, ?_⟩
  · show clauses ≤ a'.headers.size
    omega
  · show lits ≤ a'.cells.size
    omega

/-- The clauses of an arena that another one holds packed. -/
theorem Wf.compacted {a : Arena} (h : s.Wf n) (ha : a.Compacted s.arena.bodies) : Wf { s with arena := a } n :=
  ⟨ha.wf, ha.ordered, ha.within n h.within.below, h.work, h.sized, h.numVars, h.size⟩

theorem Counted.congr {a : Arena} (h : s.Counted) (hb : a.bodies = s.arena.bodies) :
    Counted { s with arena := a } := by
  obtain ⟨hclauses, hlits, hseen, hunused⟩ := h
  rw [← hb] at hclauses hlits hseen
  exact ⟨hclauses, hlits, hseen, hunused⟩

/-- The totals fit into the words that hold them. -/
theorem Wf.totals_lt (h : s.Wf n) : s.arena.bodies.length < 2 ^ 32 ∧ volume s.arena.bodies < 2 ^ 64 := by
  obtain ⟨a, _, hcompacted, _, hslots, hcells⟩ := Arena.shrink_ok h.arena h.ordered
  have hclauses := hcompacted.clauseCount
  have hlits := hcompacted.litCount
  have := a.clauseCount.toNat_lt
  have := a.litCount.toNat_lt
  omega

/-- Compaction keeps the clauses. -/
theorem compact_ends (h : s.Wf n) (hc : s.Counted)
    (hE : (∀ f, E f) ∨ s.compactions + 1 < 2 ^ 32 ∧ volume s.arena.bodies < 2 ^ 61) :
    Ends E s.compact fun t => t = { s with arena := t.arena, compactions := s.compactions + 1 } ∧
      Refines n s t ∧ t.Counted := by
  unfold compact
  refine (ends_sum32 (hE.imp (fun hE => hE _) And.left)).bind ?_
  rintro _ rfl
  have hwf : Wf { s with compactions := s.compactions + 1 } n :=
    ⟨h.arena, h.ordered, h.within, h.work, h.sized, h.numVars, h.size⟩
  have hgoal (a : Arena) (ha : a.Compacted s.arena.bodies) (hsigned : s.arena.Signed → a.Signed) :
      Refines n s { s with arena := a, compactions := s.compactions + 1 } ∧
        Counted { s with arena := a, compactions := s.compactions + 1 } :=
    ⟨.of_bodies (hwf.compacted ha) ha.bodies hsigned rfl rfl rfl rfl rfl rfl, hc.congr ha.bodies⟩
  simp only
  split
  · have ⟨hclauses, hlits⟩ := h.totals_lt
    rw [← hc.numClauses] at hclauses
    rw [← hc.numLits] at hlits hE
    refine (moveTo_ends hwf hclauses hlits (hE.imp_right And.right) (Nat.le_of_eq hc.numClauses.symm)
      (Nat.le_of_eq hc.numLits.symm)).imp ?_
    rintro ⟨o, a, table, w, r, rep, cs⟩ ⟨heq, hcompacted, hsigned, _⟩
    cases heq
    exact ⟨rfl, hgoal a hcompacted hsigned⟩
  · obtain ⟨a, hrun, hcompacted, hsigned, _⟩ := Arena.shrink_ok h.arena h.ordered
    rw [hrun]
    exact ⟨rfl, hgoal a hcompacted hsigned⟩

end Simplifier

end CnfSimp
