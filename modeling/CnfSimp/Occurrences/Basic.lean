import CnfSimp.Arena.Print

/-!
# Occurrence lists

For every literal the list of the clauses that contain it, as bounded lists in windows of one row of entries. The
capacities are fixed by a layout; between two layouts entries are only pushed once and then removed.

* `Occurrences.layout`: consecutive windows of the given capacities, all empty.
* `Occurrences.occurs`: the list of a literal, the view in which the other operations are to be read.
* `Occurrences.violated`: whether a list of one of the variables was pushed more entries than it has room for.
-/

namespace CnfSimp

/-- The windows of the lists, by literal code, and the row of entries they share. -/
structure Occurrences where
  lists : Array Window
  entries : Array Nat
  capacity : Nat
  numVars : Nat
  deriving DecidableEq

namespace Occurrences

/-- Lists without room for any entry. -/
def empty (numVars : Nat) : Occurrences :=
  ⟨.replicate (litSlots numVars) default, #[], 0, numVars⟩

/-- Empty windows of the given capacities, one after another from `base` on. -/
def windows (base : Nat) : List UInt32 → List Window
  | [] => []
  | cap :: caps => .place base cap :: windows (base + cap.toNat) caps

/-- Lays the lists out with the given capacities, and empties them. -/
def layout (caps : List UInt32) (t : Occurrences) : Except Fault Occurrences := do
  if caps.length ≠ t.lists.size then throw .capacityCountMismatch
  let total := totalOf (caps.map UInt32.toNat)
  let entries := if total > t.entries.size then .replicate total 0 else t.entries
  return { t with lists := (windows 0 caps).toArray, entries, capacity := total }

section Reading

variable (t : Occurrences)

/-- The number of lists. -/
def size : Nat := t.lists.size

/-- The list of a literal, with its entries. -/
def list (l : Lit) : Except Fault (Bounded Nat) :=
  match t.lists[l.index]? with
  | some w => .ok ⟨w, t.entries⟩
  | none => .error .outOfBounds

/-- The number of clauses listed for a literal. -/
def len (l : Lit) : Except Fault Nat := do
  return (← t.list l).window.len

/-- The clauses listed for a literal. -/
def occurs (l : Lit) : Except Fault (List Nat) := do
  (← t.list l).entries

/-- The literals of the variables, the positive one of each variable first. -/
def scanned : List Lit :=
  (List.range t.numVars).flatMap fun v => [.positive v, .negative v]

/-- Whether the list of one of the literals of the variables has overflowed. -/
def violated : Except Fault Bool := do
  let flags ← t.scanned.mapM fun l => do return (← t.list l).window.overflowed
  return flags.any id

end Reading

/-- Runs an operation on the list at a position. -/
def onList {α : Type} (i : Nat) (op : Update (Bounded Nat) α) : Update Occurrences α :=
  fun ⟨lists, entries, capacity, numVars⟩ =>
    match lists[i]? with
    | some w =>
      let (r, b) := op.run.run ⟨w, entries⟩
      (r, ⟨lists.setIfInBounds i b.window, b.cells, capacity, numVars⟩)
    | none => (.error .outOfBounds, ⟨lists, entries, capacity, numVars⟩)

/-- Lists a clause for a literal and answers whether there was room. -/
def push (l : Lit) (cref : Nat) : Update Occurrences Bool :=
  onList l.index (Bounded.push cref)

/-- Drops the first entry of a clause from the list of a literal and answers whether there was one. -/
def remove (l : Lit) (cref : Nat) : Update Occurrences Bool :=
  onList l.index (Bounded.remove cref)

/-- The list of every literal of the variables, one after another. -/
def render (t : Occurrences) : Except Fault String := do
  let lists ← t.scanned.mapM fun l => do
    let b ← t.list l
    let name ← l.toDimacs
    let text ← b.render fun cref => .ok (Text.alignRight 2 (toString cref))
    return s!"c | list[{name}][cap = {b.window.cap}]" ++ text
  return String.join lists

/-- The clauses listed for a variable, those of its positive literal first. -/
def renderClauses (t : Occurrences) (a : Arena) (v : Nat) : Except Fault String := do
  let parts ← [Lit.positive v, Lit.negative v].mapM fun l => do
    let lines ← (← t.occurs l).mapM fun cref => do return "c | " ++ (← (← a.clause cref).render)
    return String.join lines
  return String.join parts

/-- The number of lists and their total capacity. -/
def describe (t : Occurrences) : String :=
  Text.record "OccurTable" [("lists", toString t.size), ("capacity", toString t.capacity)]

end Occurrences

end CnfSimp
