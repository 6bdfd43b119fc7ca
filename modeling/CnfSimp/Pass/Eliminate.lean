import CnfSimp.Options
import CnfSimp.Reconstruction
import CnfSimp.WorkingSet

/-!
# Eliminating variables

A variable is eliminated by putting all resolvents of its clauses in their place, if these are no more than the clauses
and have no more literals. The clauses go to the reconstruction stack, each with its literal of the variable.

* `resolve`: the resolvent of two sorted clauses, unless it is a tautology. Complementary literals have neighbouring
  codes, so in a sorted clause they stand side by side.
* `resolvents`: all of them for a variable, unless there are too many, or one of them is empty.
* `resolventRoom`: what elimination will append, by which room is made for it.
* `eliminate`: one pass over the elected variables.
-/

namespace CnfSimp

/-- The resolvent of `p`, which contains `pivot`, and `n`, which contains its negation; none if it is a tautology. -/
def resolve (p n : List Lit) (pivot : Lit) : Option (List Lit) :=
  let lits := dedupAdjacent
    (mergeBy (fun l k => l ≤ k) (p.filter fun l => l ≠ pivot) (n.filter fun l => l ≠ pivot.not))
  if allAdjacent (fun l k => l.var != k.var) lits then some lits else none

/-- The live clauses listed for a literal. -/
def Occurrences.liveOccurs (t : Occurrences) (a : Arena) (l : Lit) : Except Fault (List Nat) := do
  selectM a.isLive (← t.occurs l)

/-- The total size of clauses. -/
def Arena.totalSize (a : Arena) (crefs : List Nat) : Except Fault Nat := do
  return totalOf (← crefs.mapM fun cref => do return (← a.clause cref).size)

/-- The resolvents of pairs of clauses, in order; none if one of them is empty, or together with `count` resolvents of
`size` literals they exceed one of the limits. -/
def resolvePairs (a : Arena) (pivot : Lit) (maxCount maxSize count size : Nat) :
    List (Nat × Nat) → Except Fault (Option (List (List Lit)))
  | [] => .ok (some [])
  | (p, n) :: pairs => do
    match resolve (← a.lits p) (← a.lits n) pivot with
    | none => resolvePairs a pivot maxCount maxSize count size pairs
    | some [] => return none
    | some lits =>
      let count := count + 1
      let size := size + lits.length
      if maxCount < count ∨ maxSize < size then
        return none
      else
        return (← resolvePairs a pivot maxCount maxSize count size pairs).map (lits :: ·)

/-- The resolvents on a variable; none if it is not to be eliminated. -/
def resolvents (a : Arena) (t : Occurrences) (limit v : Nat) : Except Fault (Option (List (List Lit))) := do
  let pos ← t.liveOccurs a (.positive v)
  let neg ← t.liveOccurs a (.negative v)
  if pos.isEmpty || neg.isEmpty then
    return some []
  let maxSize := min (← a.totalSize (pos ++ neg)) limit
  let pairs := pos.flatMap fun p => neg.map fun n => (p, n)
  resolvePairs a (.positive v) (pos.length + neg.length) maxSize 0 0 pairs

/-- The numbers of clauses and of literals that elimination will append. -/
def resolventRoom (o : Options) (a : Arena) (t : Occurrences) (w : WorkingSet) : Except Fault (Nat × Nat) := do
  (← w.candidateVars).foldlM (fun (clauses, lits) v => do
    match ← resolvents a t (toWord o.resolventLimit) v with
    | none => return (clauses, lits)
    | some rs => return (← sum32 clauses rs.length, ← sum64 lits (totalOf (rs.map List.length)))) (0, 0)

/-- Appends a resolvent; one of a single literal is a unit literal as well. -/
def appendResolvent (a : Arena) (w : WorkingSet) (lits : List Lit) : Except Fault (Arena × WorkingSet) := do
  let (_, a) ← (Arena.appendAscending lits .irredundant).run? a
  match lits with
  | [l] =>
    let (_, w) ← (WorkingSet.recordUnit l).run? w
    return (a, w)
  | _ => return (a, w)

/-- Melts the live ones of the given clauses, and answers them with their witness. -/
def retire (a : Arena) (witness : Lit) (crefs : List Nat) : Except Fault (List Removal × Arena) := do
  let live ← selectM a.isLive crefs
  let removals ← live.mapM fun cref => do return (⟨witness, ← a.lits cref⟩ : Removal)
  return (removals, ← live.foldlM Arena.melt a)

/-- Eliminates a variable unless that grows the formula, and answers the clauses that are gone. -/
def eliminateVar (t : Occurrences) (limit : Nat) (a : Arena) (w : WorkingSet) (v : Nat) :
    Except Fault (List Removal × Arena × WorkingSet) := do
  match ← resolvents a t limit v with
  | none => return ([], a, w)
  | some rs =>
    let (a, w) ← rs.foldlM (fun (a, w) lits => appendResolvent a w lits) (a, w)
    let (gonePos, a) ← retire a (.positive v) (← t.occurs (.positive v))
    let (goneNeg, a) ← retire a (.negative v) (← t.occurs (.negative v))
    return (gonePos ++ goneNeg, a, w)

/-- Eliminates variables in order, and answers the clauses that are gone, by variable. -/
def eliminateVars (t : Occurrences) (limit : Nat) (a : Arena) (w : WorkingSet) :
    List Nat → Except Fault (List (List Removal) × Arena × WorkingSet)
  | [] => .ok ([], a, w)
  | v :: vars => do
    let (gone, a, w) ← eliminateVar t limit a w v
    let (rest, a, w) ← eliminateVars t limit a w vars
    return (gone :: rest, a, w)

/-- Eliminates elected variables, and answers how many lost clauses. -/
def eliminate (o : Options) (a : Arena) (t : Occurrences) (w : WorkingSet) (r : Reconstruction) :
    Except Fault (Nat × Arena × WorkingSet × Reconstruction) := do
  let (gone, a, w) ← eliminateVars t (toWord o.resolventLimit) a w (← w.candidateVars)
  let r ← r.pushAll gone.flatten
  return (gone.countP (!·.isEmpty), a, w, r)

end CnfSimp
