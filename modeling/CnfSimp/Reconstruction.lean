import CnfSimp.Lit

/-!
# Reconstructing models

Some passes remove clauses that do not follow from the rest. Every such clause is kept on a stack, together with the
literal that may be flipped to satisfy it, so that a model of what is left can be turned into a model of the input.

* `satisfied`: whether an assignment makes a literal of a clause true.
* `Reconstruction.extend`: walks the stack from the top and flips the witness of every clause that is not satisfied.
-/

namespace CnfSimp

/-- The value that an assignment gives a literal. -/
def Lit.value (l : Lit) (model : Array Bool) : Except Fault Bool :=
  match model[l.var]? with
  | some b => .ok (b != l.isNeg)
  | none => .error .outOfBounds

/-- Whether some literal is true; the literals behind the first true one are not looked at. -/
def satisfied (lits : List Lit) (model : Array Bool) : Except Fault Bool :=
  lits.anyM fun l => l.value model

/-- A removed clause and the literal that satisfies it when flipped. -/
structure Removal where
  witness : Lit
  lits : List Lit
  deriving DecidableEq

/-- The removed clauses, the last one on top. -/
structure Reconstruction where
  stack : List Removal
  deriving DecidableEq

namespace Reconstruction

/-- Nothing removed yet. -/
def empty : Reconstruction := ⟨[]⟩

/-- The removed clauses in the order of their removal. -/
def toList (r : Reconstruction) : List Removal := r.stack.reverse

/-- The number of removed clauses. -/
def len (r : Reconstruction) : Nat := r.stack.length

/-- Adds a removed clause, which must contain its witness. -/
def push (r : Reconstruction) (removal : Removal) : Except Fault Reconstruction := do
  if removal.lits.contains removal.witness then
    return ⟨removal :: r.stack⟩
  else
    throw (.witnessNotInClause (← removal.witness.toDimacs) (← removal.lits.mapM Lit.toDimacs))

/-- Adds removed clauses in order. -/
def pushAll (r : Reconstruction) (removals : List Removal) : Except Fault Reconstruction :=
  removals.foldlM push r

/-- Makes the witness of a removed clause true if no literal of the clause is. -/
def flip (removal : Removal) : Update (Array Bool) Unit := do
  if !(← satisfied removal.lits (← get)) then
    let v := removal.witness.var
    Update.require (v < (← get).size) .outOfBounds
    modify (·.setIfInBounds v (!removal.witness.isNeg))

/-- Turns a model of the clauses left into a model of the clauses removed as well. -/
def extend (r : Reconstruction) : Update (Array Bool) Unit :=
  r.stack.forM flip

end Reconstruction

end CnfSimp
