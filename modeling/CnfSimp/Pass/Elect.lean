import CnfSimp.Options
import CnfSimp.WorkingSet

/-!
# Electing variables

The variables of a phase, taken greedily in the order of their scores: each that occurs, not too often, and shares no
live clause with a variable taken before. Every elected variable so owns its clauses for the rest of the phase.

* `temperature`: the bound on occurrences that doubles with every phase.
* `electFrom`: the walk over the scores. The frozen variables are those that meet an elected one.
-/

namespace CnfSimp

/-- A bound on occurrences, doubled `heat` times, up to the largest 64-bit number. -/
def temperature (mu : Int) (heat : Nat) : Nat :=
  min (toWord mu <<< min heat 63) 0xFFFFFFFFFFFFFFFF

/-- Freezes the variables of those of the given clauses that are live. -/
def freezeClauses (a : Arena) (frozen : BitSet) (crefs : List Nat) : Except Fault BitSet :=
  crefs.foldlM (fun frozen cref => do
    let c ← a.clause cref
    if ← c.isLive then frozen.insertVars (← c.lits) else return frozen) frozen

/-- Freezes a variable and all that share a live clause with it. -/
def freezeAround (a : Arena) (t : Occurrences) (frozen : BitSet) (v : Nat) : Except Fault BitSet := do
  let frozen ← frozen.insert v
  let frozen ← freezeClauses a frozen (← t.occurs (.positive v))
  freezeClauses a frozen (← t.occurs (.negative v))

/-- The elected variables, by the scores left. -/
def electFrom (a : Arena) (t : Occurrences) (posLimit negLimit : Nat) (frozen : BitSet) :
    List Score → Except Fault (List Nat)
  | [] => .ok []
  | score :: scores => do
    let v := score.var
    let pos ← t.len (.positive v)
    let neg ← t.len (.negative v)
    if pos + neg = 0 ∨ posLimit < pos ∨ negLimit < neg then
      electFrom a t posLimit negLimit frozen scores
    else if ← frozen.contains v then
      electFrom a t posLimit negLimit frozen scores
    else
      let frozen ← freezeAround a t frozen v
      return v :: (← electFrom a t posLimit negLimit frozen scores)

/-- Elects the variables of a phase and answers how many they are. -/
def elect (o : Options) (a : Arena) (t : Occurrences) (w : WorkingSet) : Except Fault (Nat × WorkingSet) := do
  let posLimit := min (temperature o.posTemperature w.heat) (toWord o.posOccursLimit)
  let negLimit := min (temperature o.negTemperature w.heat) (toWord o.negOccursLimit)
  let vars ← electFrom a t posLimit negLimit (.empty w.numVars) w.scores
  let ((), w) ← (WorkingSet.setCandidates vars).run? w
  return (vars.length, w)

end CnfSimp
