import CnfSimp.Occurrences.Build

/-!
# Scores

The order in which variables are tried: the fewer resolvents a variable can have, the earlier.

* `Score.value`: one over one plus the cost, which is the product of the two occurrence counts, or the larger one if the
  other is zero.
* `Score.rank`: higher value first, the smaller variable among equals.
* `Score.ofHistogram`, `Score.ofOccurrences`: the scores of all variables in this order.
-/

namespace CnfSimp

/-- A variable and how often each of its literals occurs. -/
structure Score where
  var : Nat
  pos : Nat
  neg : Nat
  deriving DecidableEq

namespace Score

/-- The priority of the variable, above zero and at most one. -/
def value (s : Score) : Float :=
  let cost := if s.pos = 0 ∨ s.neg = 0 then Float.ofNat (max s.pos s.neg) else Float.ofNat s.pos * Float.ofNat s.neg
  1.0 / (1.0 + cost)

/-- The number of occurrences of the variable. -/
def occurs (s : Score) : Except Fault Nat := sum32 s.pos s.neg

/-- Whether `s` goes before `t` or has its rank: positive numbers are ordered as the words that encode them. -/
def rank (s t : Score) : Bool :=
  let x := s.value.toBits
  let y := t.value.toBits
  y < x || (y == x && s.var ≤ t.var)

/-- The scores in processing order. -/
def sort (scores : List Score) : List Score := sortBy rank scores

/-- The scores of all variables, counted in the live clauses of an arena. -/
def ofHistogram (a : Arena) (numVars : Nat) : Except Fault (List Score) := do
  let hist ← Occurrences.histogram a numVars
  let count (l : Lit) : Except Fault Nat :=
    match hist[l.index]? with
    | some n => .ok n.toNat
    | none => .error .outOfBounds
  let scores ← (List.range numVars).mapM fun v => do
    return (⟨v, ← count (.positive v), ← count (.negative v)⟩ : Score)
  return sort scores

/-- The scores of all variables, by the lengths of their occurrence lists. -/
def ofOccurrences (t : Occurrences) (numVars : Nat) : Except Fault (List Score) := do
  let scores ← (List.range numVars).mapM fun v => do
    return (⟨v, ← t.len (.positive v), ← t.len (.negative v)⟩ : Score)
  return sort scores

end Score

end CnfSimp
