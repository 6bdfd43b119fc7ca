import CnfSimp.Arena.Compact
import CnfSimp.Pass.Block
import CnfSimp.Pass.Elect
import CnfSimp.Pass.Hidden
import CnfSimp.Pass.Subsume
import CnfSimp.Pass.Units
import CnfSimp.Report

/-!
# Simplification

A formula on its way through the passes. A round elects variables, runs every enabled pass on them and counts what is
left; a phase is one round, repeated while it removes enough literals; a run is a number of phases, after which the unit
clauses are collected and the arena is compacted.

* `Simplifier.round`: answers whether enough variables were elected for the passes to run.
* `Simplifier.phase`: ends because every repetition has removed at least one literal.
* `Simplifier.run`: a whole run. It can be repeated.
-/

namespace CnfSimp

/-- The formula with its occurrence lists, the working set, the clauses to reconstruct models by, the report, and how
often the arena has been compacted. -/
structure Simplifier where
  options : Options
  arena : Arena
  table : Occurrences
  work : WorkingSet
  removed : Reconstruction
  report : Report
  compactions : Nat
  deriving DecidableEq

namespace Simplifier

/-- A simplification of an arena, all of whose literals must be of the first `numVars` variables. -/
def ofArena (options : Options) (arena : Arena) (numVars : Nat) : Except Fault Simplifier := do
  let covered ← arena.crefs.allM fun cref => do return (← arena.lits cref).all (·.var < numVars)
  if covered then
    return ⟨options, arena, .empty numVars, .empty numVars, .empty, {}, 0⟩
  else
    throw .failedCheck

variable (s : Simplifier)

/-- Counts the live clauses. -/
def count : Except Fault Simplifier := do
  return { s with work.tally := ← s.work.tally.countAll s.arena }

/-- Drops the entries of clauses that are no longer live. -/
def reduce : Except Fault Simplifier := do
  let (_, table) ← s.table.reduce s.arena
  return { s with table }

/-- Moves to a new arena of the given capacities. -/
def moveTo (clauseCap litCap : Nat) : Except Fault Simplifier := do
  let arena ← Arena.allocate (.ofNat (max clauseCap 1)) (.ofNat (max litCap 1))
  let ((), arena) ← (Arena.compactFrom s.arena).run? arena
  return { s with arena }

/-- Makes room for more clauses and literals. A bigger arena numbers its clauses anew, so the lists are rebuilt. -/
def reserve (clauses lits : Nat) : Except Fault Simplifier := do
  if clauses ≤ s.arena.freeClauses ∧ lits ≤ s.arena.freeLits then
    return s
  let s ← s.count
  let s ← s.moveTo (← sum32 s.work.tally.numClauses clauses) (← sum64 s.work.tally.numLits lits)
  return { s with table := ← s.table.build s.arena }

/-- Compacts the arena: in place, or every so often into an arena of the exact size. -/
def compact : Except Fault Simplifier := do
  let s := { s with compactions := ← sum32 s.compactions 1 }
  let every := (toWord s.options.reallocEvery) % 0x100000000
  if 0 < every ∧ s.compactions % every = 0 then
    s.moveTo s.work.tally.numClauses s.work.tally.numLits
  else
    let ((), arena) ← Arena.shrink.run? s.arena
    return { s with arena }

/-! ## Passes -/

/-- Eliminates variables. -/
def runEliminate : Except Fault Simplifier := do
  let (clauses, lits) ← resolventRoom s.options s.arena s.table s.work
  let s ← s.reserve clauses lits
  let (n, arena, work, removed) ← eliminate s.options s.arena s.table s.work s.removed
  let s := { s with arena, work, removed, report.eliminated := ← sum32 s.report.eliminated n }
  s.reduce

/-- Subsumes and strengthens clauses. -/
def runSubsume : Except Fault Simplifier := do
  let (counts, arena, table) ← subsume s.options s.arena s.table s.work
  let subsumed ← sum32 s.report.subsumed counts.subsumed
  let strengthened ← sum32 s.report.strengthened counts.strengthened
  let report := { s.report with subsumed, strengthened }
  reduce { s with arena, table, report }

/-- Removes blocked clauses. -/
def runBlocked : Except Fault Simplifier := do
  let (n, arena, removed) ← removeBlocked s.options s.arena s.table s.work s.removed
  let s := { s with arena, removed, report.blocked := ← sum32 s.report.blocked n }
  s.reduce

/-- Removes hidden tautologies. -/
def runHidden : Except Fault Simplifier := do
  let (n, arena) ← removeHidden s.options s.arena s.table s.work
  let s := { s with arena, report.hidden := ← sum32 s.report.hidden n }
  s.reduce

/-- Runs a pass if it is enabled. -/
def runIf (enabled : Bool) (pass : Simplifier → Except Fault Simplifier) : Except Fault Simplifier :=
  if enabled then pass s else .ok s

/-! ## Rounds, phases, runs -/

/-- Builds the occurrence lists, scores the variables and elects some. -/
def prepare : Except Fault (Nat × Simplifier) := do
  let table ← s.table.build s.arena
  let scores ← Score.ofHistogram s.arena s.work.numVars
  let (n, work) ← elect s.options s.arena table { s.work with scores }
  return (n, { s with table, work })

/-- One round, if enough variables are elected for it; answers whether they were. -/
def round : Except Fault (Bool × Simplifier) := do
  let (n, s) ← s.prepare
  if n < toWord s.options.minCandidates then
    return (false, s)
  let s ← s.runIf s.options.eliminate runEliminate
  let s ← s.runIf s.options.subsumes runSubsume
  let s ← s.runIf s.options.blocks runBlocked
  let s ← s.runIf s.options.hides runHidden
  return (true, ← s.count)

/-- A round and the compaction behind it; answers whether enough variables were elected. -/
def roundAndCompact : Except Fault (Bool × Simplifier) := do
  let (ran, s) ← s.round
  if ran then
    let s ← s.compact
    return (true, { s with report.rounds := ← sum32 s.report.rounds 1 })
  else
    return (false, s)

/-- The number of literals in the live clauses, when last counted. -/
def numLits : Nat := s.work.tally.numLits

/-- Rounds until one elects too few variables or removes too few literals; answers whether the last one could run. -/
def phase (s : Simplifier) : Except Fault (Bool × Simplifier) :=
  match s.roundAndCompact with
  | .error f => .error f
  | .ok (false, t) => .ok (false, t)
  | .ok (true, t) =>
    if !t.options.repeatPhase ∨ s.numLits - t.numLits ≤ toWord t.options.repeatThreshold then .ok (true, t)
    else phase t
termination_by s.numLits

/-- Phases until none are left or one elects too few variables. The temperature is raised after each. -/
def runPhases : Nat → Simplifier → Except Fault Simplifier
  | 0, s => .ok s
  | n + 1, s => do
    let (ran, s) ← s.phase
    let s := { s with work.heat := ← sum32 s.work.heat 1 }
    if ran then runPhases n { s with report.phases := ← sum32 s.report.phases 1 } else return s

/-- A whole run. -/
def run : Except Fault Simplifier := do
  let s ← s.count
  let s := { s with report.clausesBefore := s.work.tally.numClauses, report.litsBefore := s.work.tally.numLits }
  let s ← runPhases s.options.phases.toNat s
  let (units, arena, work) ← collectUnits s.arena s.work
  let s ← count { s with arena, work, report.units := units }
  let ((), arena) ← Arena.shrink.run? s.arena
  let tally := s.work.tally
  let report := { s.report with
    clausesAfter := tally.numClauses, litsAfter := tally.numLits, unusedVars := tally.unusedVars }
  return { s with arena, report }

/-- The arena, the number of removed clauses and the report as a record. -/
def describe : String :=
  Text.record "Simplifier" [("cnf", s.arena.describe), ("model", toString s.removed.len), ("report", s.report.describe)]

end Simplifier

end CnfSimp
