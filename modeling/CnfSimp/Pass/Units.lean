import CnfSimp.WorkingSet

/-!
# Collecting units

Every live clause of a single literal becomes a unit literal of the working set, and is melted.
-/

namespace CnfSimp

/-- Collects the units among the given clauses, and answers how many were melted, together with `n` before. -/
def collectUnitsFrom (n : Nat) (a : Arena) (w : WorkingSet) :
    List Nat → Except Fault (Nat × Arena × WorkingSet)
  | [] => .ok (n, a, w)
  | cref :: crefs => do
    let c ← a.clause cref
    if !(← c.isLive) || c.size ≠ 1 then
      collectUnitsFrom n a w crefs
    else
      let (_, w) ← (WorkingSet.recordUnit (← c.lit 0)).run? w
      collectUnitsFrom (n + 1) (← a.melt cref) w crefs

/-- Collects all units, and answers how many clauses were melted. -/
def collectUnits (a : Arena) (w : WorkingSet) : Except Fault (Nat × Arena × WorkingSet) :=
  collectUnitsFrom 0 a w a.crefs

end CnfSimp
