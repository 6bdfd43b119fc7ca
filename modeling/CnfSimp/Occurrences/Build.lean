import CnfSimp.Occurrences.Basic

/-!
# Building occurrence lists

* `Occurrences.histogram`: how often every literal occurs in the live clauses of an arena.
* `Occurrences.build`: lists laid out by that histogram, each with the live clauses of its literal in ascending order.
* `Occurrences.reduce`: drops the entries of clauses that are no longer live.
-/

namespace CnfSimp.Occurrences

/-- Counts a list of literals. -/
def countLits (hist : Array UInt32) (lits : List Lit) : Except Fault (Array UInt32) :=
  lits.foldlM (fun hist l =>
    match hist[l.index]? with
    | some n => .ok (hist.setIfInBounds l.index (n + 1))
    | none => .error .outOfBounds) hist

/-- The number of live occurrences of every literal, by code. -/
def histogram (a : Arena) (numVars : Nat) : Except Fault (Array UInt32) :=
  a.crefs.foldlM (fun hist cref => do
    let c ← a.clause cref
    if ← c.isLive then countLits hist (← c.lits) else return hist) (.replicate (litSlots numVars) 0)

/-- Lists a clause for each of its literals. -/
def pushClause (cref : Nat) (lits : List Lit) (t : Occurrences) : Except Fault Occurrences :=
  lits.foldlM (fun t l => do
    let (_, t) ← (push l cref).run? t
    return t) t

/-- Lists every live clause of an arena. -/
def pushAll (a : Arena) (t : Occurrences) : Except Fault Occurrences :=
  a.crefs.foldlM (fun t cref => do
    let c ← a.clause cref
    if ← c.isLive then pushClause cref (← c.lits) t else return t) t

/-- Sorts every list. -/
def sortAll (t : Occurrences) : Except Fault Occurrences :=
  (List.range t.size).foldlM (fun t i => do
    let (_, t) ← (onList i (Bounded.sort fun c d => c ≤ d)).run? t
    return t) t

/-- Lays the lists out for an arena and fills them. -/
def build (a : Arena) (t : Occurrences) : Except Fault Occurrences := do
  let caps ← histogram a t.numVars
  let t ← t.layout caps.toList
  let t ← t.pushAll a
  let t ← t.sortAll
  if ← t.violated then throw .failedCheck
  return t

/-- Drops the entries of clauses that are not live, and answers how many they were. -/
def reduce (a : Arena) (t : Occurrences) : Except Fault (Nat × Occurrences) :=
  (List.range t.size).foldlM (fun (removed, t) i => do
    let (n, t) ← (onList i (Bounded.retain a.isLive)).run? t
    return (removed + n, t)) (0, t)

end CnfSimp.Occurrences
