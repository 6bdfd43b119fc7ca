import CnfSimp.Arena.Basic
import CnfSimp.BitSet

/-!
# Counting an arena

The totals of the live clauses, by which the next arena is sized: how many there are, how many literals they have, and
how many variables occur in none of them.
-/

namespace CnfSimp

/-- Adds the variables of a list of literals. -/
def BitSet.insertVars (s : BitSet) (lits : List Lit) : Except Fault BitSet :=
  lits.foldlM (fun s l => s.insert l.var) s

/-- The totals of an arena, and the marks of the variables seen while counting. -/
structure Tally where
  seen : BitSet
  numLits : Nat
  unusedVars : Nat
  numClauses : Nat
  deriving DecidableEq

namespace Tally

/-- Nothing counted yet, over `numVars` variables. -/
def zero (numVars : Nat) : Tally := ⟨.empty numVars, 0, 0, 0⟩

/-- Counts the live clauses. -/
def countClauses (a : Arena) (t : Tally) : Except Fault Tally := do
  return { t with numClauses := (← a.live).length }

/-- Counts the literals of the live clauses. -/
def countLits (a : Arena) (t : Tally) : Except Fault Tally := do
  return { t with numLits := totalOf (← a.mapLive fun _ c => .ok c.size) }

/-- Counts the variables that occur in no live clause. -/
def countUnused (a : Arena) (t : Tally) : Except Fault Tally := do
  let seen ← a.crefs.foldlM (fun seen cref => do
    let c ← a.clause cref
    if ← c.isLive then seen.insertVars (← c.lits) else return seen) t.seen.clear
  return { t with seen, unusedVars := seen.capacity - seen.count }

/-- Makes every count. -/
def countAll (a : Arena) (t : Tally) : Except Fault Tally := do
  let t ← countClauses a t
  let t ← countLits a t
  countUnused a t

/-- The totals as a record. -/
def describe (t : Tally) : String :=
  Text.record "GStats" [("num_lits", toString t.numLits), ("num_del_vars", toString t.unusedVars),
    ("num_clauses", toString t.numClauses)]

end Tally

end CnfSimp
