import CnfSimp.Text.Layout

/-!
# Reports

What a simplification did: the phases and rounds it ran, what every technique removed, and the size of the formula
before and after.
-/

namespace CnfSimp

/-- The numbers that a simplification reports. Repeated rounds of a phase count as rounds. -/
structure Report where
  phases : Nat := 0
  rounds : Nat := 0
  eliminated : Nat := 0
  subsumed : Nat := 0
  strengthened : Nat := 0
  blocked : Nat := 0
  hidden : Nat := 0
  units : Nat := 0
  clausesBefore : Nat := 0
  litsBefore : Nat := 0
  clausesAfter : Nat := 0
  litsAfter : Nat := 0
  unusedVars : Nat := 0
  deriving DecidableEq

namespace Report

variable (r : Report)

/-- The report, line by line. -/
def lines : List String :=
  [s!"c | phases: {r.phases} ({r.rounds} rounds)",
    s!"c | clauses: {r.clausesBefore} -> {r.clausesAfter}",
    s!"c | literals: {r.litsBefore} -> {r.litsAfter}",
    s!"c | eliminated variables: {r.eliminated}",
    s!"c | removed variables: {r.unusedVars}",
    s!"c | subsumed: {r.subsumed}, strengthened: {r.strengthened}",
    s!"c | blocked: {r.blocked}, hidden: {r.hidden}",
    s!"c | units: {r.units}"]

/-- The report as a text. -/
def render : String := String.join (r.lines.map (· ++ "\n"))

/-- The fields in order, with their names. -/
def fields : List (String × Nat) :=
  [("phases", r.phases), ("rounds", r.rounds), ("eliminated", r.eliminated), ("subsumed", r.subsumed),
    ("strengthened", r.strengthened), ("blocked", r.blocked), ("hidden", r.hidden), ("units", r.units),
    ("clauses_before", r.clausesBefore), ("lits_before", r.litsBefore), ("clauses_after", r.clausesAfter),
    ("lits_after", r.litsAfter), ("del_vars", r.unusedVars)]

/-- The report as a record. -/
def describe : String :=
  Text.record "SimpReport" (r.fields.map fun (name, n) => (name, toString n))

end Report

end CnfSimp
