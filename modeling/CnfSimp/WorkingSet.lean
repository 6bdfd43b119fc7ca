import CnfSimp.Score
import CnfSimp.Tally

/-!
# The working set of a phase

What the passes of one phase share besides the formula: the elected variables, the unit literals found so far, the
scores and the totals.

* `WorkingSet.setCandidates`: elects variables. A variable out of range or a list that is too long is found after the
  marks have begun to change.
* `WorkingSet.recordUnit`: adds a unit literal the first time it is found.
-/

namespace CnfSimp

/-- The elected variables with their marks, the unit literals with theirs, the scores, the totals, and how often the
freezing temperature has been raised. -/
structure WorkingSet where
  candidates : Bounded Nat
  units : Bounded Lit
  unitMarks : BitSet
  elected : BitSet
  scores : List Score
  tally : Tally
  numCandidates : Nat
  heat : Nat
  deriving DecidableEq

namespace WorkingSet

/-- Nothing elected, found or counted yet, over `numVars` variables. -/
def empty (numVars : Nat) : WorkingSet where
  candidates := .ofCapacity numVars
  units := .ofCapacity (litSlots numVars)
  unitMarks := .empty (litSlots numVars)
  elected := .empty numVars
  scores := []
  tally := .zero numVars
  numCandidates := 0
  heat := 0

/-- The number of variables. -/
def numVars (w : WorkingSet) : Nat := w.tally.seen.capacity

/-- The unit literals in the order in which they were found. -/
def unitLits (w : WorkingSet) : Except Fault (List Lit) := w.units.entries

/-- The elected variables in order. -/
def candidateVars (w : WorkingSet) : Except Fault (List Nat) := w.candidates.entries

/-- Whether a variable is elected. -/
def isElected (w : WorkingSet) (v : Nat) : Except Fault Bool := w.elected.contains v

/-- Marks variables as elected, one after another. -/
def markElected : List Nat → Update WorkingSet Unit
  | [] => pure ()
  | v :: vars => do
    let elected ← (← get).elected.insert v
    modify fun w => { w with elected }
    markElected vars

/-- Elects exactly the given variables. -/
def setCandidates (vars : List Nat) : Update WorkingSet Unit := do
  modify fun w => { w with elected := w.elected.clear }
  markElected vars
  let ((), candidates) ← (Bounded.assign vars).run? (← get).candidates
  modify fun w => { w with candidates, numCandidates := vars.length }

/-- Adds a unit literal unless it is known, and answers whether it is new. -/
def recordUnit (l : Lit) : Update WorkingSet Bool := do
  let (known, unitMarks) ← (← get).unitMarks.testAndSet l.index
  modify fun w => { w with unitMarks }
  if known then
    return false
  let (pushed, units) ← (Bounded.push l).run? (← get).units
  modify fun w => { w with units }
  Update.require pushed .unitListOverflow
  return true

end WorkingSet

end CnfSimp
