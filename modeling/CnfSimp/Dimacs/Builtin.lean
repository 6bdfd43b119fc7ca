import CnfSimp.Dimacs.Reader

/-!
# Built-in formulas

Three small formulas to run without a file.
-/

namespace CnfSimp.Problem

/-- A formula over two variables that excludes all four assignments. -/
def failText : String := "c unsatisfiable: every assignment of 1 and 2 is excluded
p cnf 2 4
1 2 0
1 -2 0
-1 2 0
-1 -2 0
"

/-- A formula that is unsatisfiable whichever way its first variable is decided. -/
def longText : String := "c unsatisfiable whichever way 1 is decided
p cnf 6 8
1 2 3 0
1 2 -3 0
-2 4 0
1 -2 -4 0
-1 5 6 0
-1 5 -6 0
-5 -6 0
-1 -5 6 0
"

/-- A satisfiable formula. -/
def succText : String := "c satisfiable
p cnf 12 8
1 4 0
1 -3 -8 0
1 8 12 0
2 11 0
-3 -7 9 0
-7 8 -9 0
7 8 -10 0
7 10 -12 0
"

/-- The built-in formulas and their names. -/
def builtin : List (String × String) :=
  [("fail_eg", failText), ("long_eg", longText), ("succ_eg", succText)]

end CnfSimp.Problem
