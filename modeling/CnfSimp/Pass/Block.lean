import CnfSimp.Pass.Eliminate

/-!
# Blocked clauses

A clause is blocked by one of its literals if every resolvent on that literal is a tautology. Blocked clauses of the
elected variables are melted and go to the reconstruction stack, with the blocking literal as witness.
-/

namespace CnfSimp

/-- Whether resolving `c` and `d` on a literal of `c` gives a tautology. -/
def tautologyOn (c d : Clause) (l : Lit) : Except Fault Bool := do
  ((← c.lits).filter fun k => k ≠ l).anyM fun k => d.has k.not

/-- Whether a clause is blocked by literal `l`, given the clauses with the negation of `l`. -/
def isBlocked (a : Arena) (c : Clause) (l : Lit) (others : List Nat) : Except Fault Bool :=
  others.allM fun dref => do
    let d ← a.clause dref
    if ← d.isLive then tautologyOn c d l else return true

/-- Melts those of the given clauses that are blocked by `l` and not too long, and answers them. -/
def blockAmong (t : Occurrences) (limit : Nat) (l : Lit) (a : Arena) :
    List Nat → Except Fault (List Removal × Arena)
  | [] => .ok ([], a)
  | cref :: crefs => do
    let c ← a.clause cref
    if !(← c.isLive) || limit < c.size then
      blockAmong t limit l a crefs
    else if ← isBlocked a c l (← t.occurs l.not) then
      let removal : Removal := ⟨l, ← c.lits⟩
      let (rest, a) ← blockAmong t limit l (← a.melt cref) crefs
      return (removal :: rest, a)
    else
      blockAmong t limit l a crefs

/-- Melts the blocked clauses of a variable, unless one of its literals occurs too often. -/
def blockVar (t : Occurrences) (fanLimit limit : Nat) (a : Arena) (v : Nat) :
    Except Fault (List Removal × Arena) := do
  if fanLimit < (← t.len (.positive v)) then return ([], a)
  if fanLimit < (← t.len (.negative v)) then return ([], a)
  let (pos, a) ← blockAmong t limit (.positive v) a (← t.occurs (.positive v))
  let (neg, a) ← blockAmong t limit (.negative v) a (← t.occurs (.negative v))
  return (pos ++ neg, a)

/-- Melts blocked clauses of variables in order. -/
def blockVars (t : Occurrences) (fanLimit limit : Nat) (a : Arena) : List Nat → Except Fault (List Removal × Arena)
  | [] => .ok ([], a)
  | v :: vars => do
    let (gone, a) ← blockVar t fanLimit limit a v
    let (rest, a) ← blockVars t fanLimit limit a vars
    return (gone ++ rest, a)

/-- Melts the blocked clauses of the elected variables, and answers how many they are. -/
def removeBlocked (o : Options) (a : Arena) (t : Occurrences) (w : WorkingSet) (r : Reconstruction) :
    Except Fault (Nat × Arena × Reconstruction) := do
  let (gone, a) ← blockVars t (toWord o.fanLimit) (toWord o.blockedSizeLimit) a (← w.candidateVars)
  return (gone.length, a, ← r.pushAll gone)

end CnfSimp
