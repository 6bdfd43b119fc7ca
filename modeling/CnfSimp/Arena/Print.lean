import CnfSimp.Arena.Basic

/-!
# Printing arenas

Clauses one to a line behind their slot number, the raw row of literals, and the sizes of an arena as a record.
-/

namespace CnfSimp.Arena

variable (a : Arena)

/-- The lines of the clauses that pass a test, in the order of their slots. -/
def renderWhere (p : Clause → Except Fault Bool) (line : Clause → Except Fault String) : Except Fault String := do
  let lines ← a.crefs.filterMapM fun cref => do
    let c ← a.clause cref
    if ← p c then return some (s!"c | C({cref})->" ++ (← line c)) else return none
  return String.join lines

/-- Every clause that is not empty. -/
def renderAll : Except Fault String :=
  a.renderWhere (fun c => .ok !c.isEmpty) Clause.render

/-- Every clause that is neither empty nor deleted. -/
def renderRemaining : Except Fault String :=
  a.renderWhere (fun c => if c.isEmpty then .ok false else return !(← c.header.isDeleted)) Clause.render

/-- Every deleted clause. -/
def renderDeleted : Except Fault String :=
  a.renderWhere (fun c => c.header.isDeleted) Clause.render

/-- The signature of every clause that is not empty. -/
def renderSigs : Except Fault String :=
  a.renderWhere (fun c => .ok !c.isEmpty) fun c => .ok s!"sig({c.header.sig})\n"

/-- The literals in use, four to a line. -/
def dump : Except Fault String := do
  let lits := a.usedLits
  let items ← lits.zipIdx.mapM fun (l, i) => do
    let value := Text.alignRight 6 (toString (← l.toDimacs))
    let wrap := if i % 4 == 3 && i + 1 < lits.length then "\n" else ""
    return s!"({i}): {value}, {wrap}"
  return "c | CNF raw data:\n" ++ String.join items ++ "\n"

/-- The numbers of clauses and literals in use, and the capacities. -/
def describe : String :=
  Text.record "Cnf" [("clauses", toString a.len), ("capacity", toString a.capacity),
    ("lits", toString a.numLits), ("lits_capacity", toString a.litCapacity)]

end CnfSimp.Arena
