import CnfSimp.Pass.Eliminate

/-!
# Subsumption

Around every elected variable: a clause that contains another one is melted, and a clause `d` from which resolution with
a clause `c` would only take a literal loses that literal in place.

* `strengthenOn l`: takes the negation of `l` out of clauses, by the clauses with `l`.
* `subsumeOn l`: melts clauses with `l` that contain another one, the smaller clause being kept.
* `subsume`: one pass over the elected variables.
-/

namespace CnfSimp

/-- How many clauses were melted, and how many lost a literal. -/
structure SubsumeCounts where
  subsumed : Nat
  strengthened : Nat
  deriving DecidableEq

/-- Whether all literals of `c` but `skip` occur in `d`. -/
def coveredBy (c d : Clause) (skip : Lit) : Except Fault Bool := do
  ((← c.lits).filter fun l => l ≠ skip).allM d.has

/-- Whether clause `cref` with literal `l` takes the negation of `l` out of clause `dref`. `sig` is the signature of the
first clause without `l`. -/
def strengthens (a : Arena) (l : Lit) (cref : Nat) (sig : UInt32) (dref : Nat) : Except Fault Bool := do
  let c ← a.clause cref
  let d ← a.clause dref
  if dref = cref then
    return false
  else if !(← d.isLive) || d.size ≤ 2 || d.size < c.size || sig &&& ~~~d.header.sig ≠ 0 then
    return false
  else if ← d.has l.not then
    coveredBy c d l
  else
    return false

/-- Strengthens the given clauses by a clause with literal `l`, and answers how many lost a literal. -/
def strengthenBy (l : Lit) (cref : Nat) (sig : UInt32) (n : Nat) (a : Arena) (t : Occurrences) :
    List Nat → Except Fault (Nat × Arena × Occurrences)
  | [] => .ok (n, a, t)
  | dref :: targets => do
    if ← strengthens a l cref sig dref then
      let (_, a) ← (Arena.onClause dref (Clause.erase l.not)).run? a
      let (_, t) ← (Occurrences.remove l.not dref).run? t
      strengthenBy l cref sig (← sum32 n 1) a t targets
    else
      strengthenBy l cref sig n a t targets

/-- Strengthens the given targets by the given clauses with literal `l`. A clause that contains the negation of `l` as
well would only give its target back. -/
def strengthenByAll (l : Lit) (targets : List Nat) (n : Nat) (a : Arena) (t : Occurrences) :
    List Nat → Except Fault (Nat × Arena × Occurrences)
  | [] => .ok (n, a, t)
  | cref :: crefs => do
    let c ← a.clause cref
    if !(← c.isLive) then
      strengthenByAll l targets n a t crefs
    else if ← c.has l.not then
      strengthenByAll l targets n a t crefs
    else
      let sig := signature ((← c.lits).filter fun k => k ≠ l)
      let (n, a, t) ← strengthenBy l cref sig n a t targets
      strengthenByAll l targets n a t crefs

/-- Takes the negation of `l` out of clauses, by the clauses with `l`, and answers how many lost it. -/
def strengthenOn (l : Lit) (a : Arena) (t : Occurrences) : Except Fault (Nat × Arena × Occurrences) := do
  let targets ← t.occurs l.not
  strengthenByAll l targets 0 a t (← t.occurs l)

/-- Whether clause `cref` is contained in clause `dref`, apart from `l`, which both have. -/
def subsumes (a : Arena) (l : Lit) (cref dref : Nat) : Except Fault Bool := do
  let c ← a.clause cref
  let d ← a.clause dref
  if !(← d.isLive) || c.header.sig &&& ~~~d.header.sig ≠ 0 then return false else coveredBy c d l

/-- Makes a learnt clause irredundant if it subsumes an irredundant one. -/
def promote (a : Arena) (cref dref : Nat) : Except Fault Arena := do
  let c ← a.clause cref
  if (← c.header.status) = .learnt then
    let d ← a.clause dref
    if (← d.header.status) = .irredundant then
      let ((), a) ← (Arena.onClause cref (Clause.setStatus .irredundant)).run? a
      return a
  return a

/-- Melts those of the given clauses that a clause subsumes, and answers how many they are. -/
def meltSubsumed (l : Lit) (cref n : Nat) (a : Arena) : List Nat → Except Fault (Nat × Arena)
  | [] => .ok (n, a)
  | dref :: rest => do
    if ← subsumes a l cref dref then
      let a ← promote a cref dref
      let a ← a.melt dref
      meltSubsumed l cref (← sum32 n 1) a rest
    else
      meltSubsumed l cref n a rest

/-- Melts every clause of a list that an earlier one subsumes. -/
def subsumeLater (l : Lit) (n : Nat) (a : Arena) : List Nat → Except Fault (Nat × Arena)
  | [] => .ok (n, a)
  | cref :: rest => do
    if ← a.isLive cref then
      let (n, a) ← meltSubsumed l cref n a rest
      subsumeLater l n a rest
    else
      subsumeLater l n a rest

/-- Melts the clauses with `l` that contain a smaller one, or an equal one of a lower number. -/
def subsumeOn (l : Lit) (a : Arena) (t : Occurrences) : Except Fault (Nat × Arena) := do
  let keyed ← (← t.occurs l).mapM fun cref => do return ((← a.clause cref).size, cref)
  let sorted := sortBy (fun x y => x.1 < y.1 || (x.1 == y.1 && x.2 ≤ y.2)) keyed
  subsumeLater l 0 a (sorted.map Prod.snd)

/-- Strengthens and subsumes around one variable, unless its clauses have too many literals. -/
def subsumeVar (limit : Nat) (a : Arena) (t : Occurrences) (v : Nat) :
    Except Fault (SubsumeCounts × Arena × Occurrences) := do
  let pos ← t.occurs (.positive v)
  let neg ← t.occurs (.negative v)
  if limit < (← a.totalSize (pos ++ neg)) then
    return (⟨0, 0⟩, a, t)
  let (n₁, a, t) ← strengthenOn (.positive v) a t
  let (n₂, a, t) ← strengthenOn (.negative v) a t
  let (m₁, a) ← subsumeOn (.positive v) a t
  let (m₂, a) ← subsumeOn (.negative v) a t
  return (⟨← sum32 m₁ m₂, ← sum32 n₁ n₂⟩, a, t)

/-- Strengthens and subsumes around the elected variables. -/
def subsume (o : Options) (a : Arena) (t : Occurrences) (w : WorkingSet) :
    Except Fault (SubsumeCounts × Arena × Occurrences) := do
  (← w.candidateVars).foldlM (fun (counts, a, t) v => do
    let (more, a, t) ← subsumeVar (toWord o.subsumeLimit) a t v
    let subsumed ← sum32 counts.subsumed more.subsumed
    let strengthened ← sum32 counts.strengthened more.strengthened
    return (⟨subsumed, strengthened⟩, a, t)) (⟨0, 0⟩, a, t)

end CnfSimp
