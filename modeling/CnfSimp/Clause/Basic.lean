import CnfSimp.Bounded
import CnfSimp.Clause.Header
import CnfSimp.Text.Layout

/-!
# Clauses

A clause in an arena: its header and the row of literal cells in which its block lies. The block of a header that was
read from outside may leave the row, so reading it can fault.

* `Clause.lits`: the literals, the view in which the other operations are to be read.
* `Clause.has`: membership. Clauses of two literals compare directly. Others must be sorted; a literal in their range is
  searched for (`Clause.search`) between bounds that every turn narrows (`Clause.turn_narrows`).
* `Clause.render`, `Clause.describe`: the line of a printed clause, and the clause as a record.
-/

namespace CnfSimp

/-- A clause: its header, and the cells that its block lies in. -/
structure Clause where
  header : Header
  cells : Array Lit
  deriving DecidableEq

namespace Clause

variable (c : Clause)

/-- The number of literals. -/
def size : Nat := c.header.size.toNat

/-- The position of the first literal. -/
def start : Nat := c.header.start.toNat

/-- Whether the clause has no literals. -/
def isEmpty : Bool := c.size == 0

/-- Whether the clause is neither deleted nor melted. -/
def isLive : Except Fault Bool := c.header.isLive

/-- The literals in order. -/
def lits : Except Fault (List Lit) := block c.cells c.start c.size

/-- The content of the cell that lies `i` places after the start. -/
def cell (i : Nat) : Except Fault Lit := do
  let pos ← sum64 c.start i
  match c.cells[pos]? with
  | some l => return l
  | none => throw .outOfBounds

/-- The literal at a position of the clause. -/
def lit (i : Nat) : Except Fault Lit :=
  if i < c.size then c.cell i else .error (.literalOutOfClause i c.size)

/-- Whether no literal exceeds its successor. -/
def isSorted : Except Fault Bool := do
  return allAdjacent (fun l k => l ≤ k) (← c.lits)

/-- What a turn of the search comes to: an answer, or new bounds. -/
inductive Turn where
  | answer (found : Bool)
  | narrow (low high : Nat)
  deriving DecidableEq

/-- One turn of the search between two positions, both included, in a sorted clause: the literal half way is compared.
Where the search goes on to its left, the position must not be the first one, which has none before it. -/
def turn (l : Lit) (low high : Nat) : Except Fault Turn :=
  if low ≤ high then do
    let mid := (← sum64 low high) / 2
    let m ← c.lit mid
    if m < l then
      return .narrow (← sum64 mid 1) high
    else if l < m then
      if mid = 0 then return .answer false else return .narrow low (← diff64 mid 1)
    else
      return .answer true
  else
    return .answer false

/-- A turn without an answer leaves at most half of the positions. -/
theorem turn_narrows {c : Clause} {l : Lit} {low high low' high' : Nat}
    (h : c.turn l low high = .ok (.narrow low' high')) :
    low ≤ high ∧ high' ≤ high ∧ 2 * (high' + 1 - low') ≤ high + 1 - low := by
  unfold turn at h
  split at h
  · next hle =>
    obtain ⟨sum, hsum, h⟩ := bind_eq_ok_iff.1 h
    obtain ⟨m, _, h⟩ := bind_eq_ok_iff.1 h
    have hsum := add_eq_of_sum64 hsum
    split at h
    · obtain ⟨next, hnext, h⟩ := bind_eq_ok_iff.1 h
      cases h
      have hnext := add_eq_of_sum64 hnext
      omega
    split at h
    · split at h
      · cases h
      obtain ⟨next, hnext, h⟩ := bind_eq_ok_iff.1 h
      cases h
      have hnext := add_eq_of_diff64 hnext
      omega
    · cases h
  · cases h

/-- The search for a literal between two positions, both included. -/
def search (l : Lit) (low high : Nat) : Except Fault Bool :=
  match _h : c.turn l low high with
  | .ok (.answer found) => .ok found
  | .ok (.narrow low' high') => search l low' high'
  | .error f => .error f
termination_by high + 1 - low
decreasing_by
  have := turn_narrows ‹_›
  omega

/-- Whether a literal occurs in the clause, which must be sorted unless it has two literals. -/
def has (l : Lit) : Except Fault Bool := do
  if c.size = 0 then
    return false
  else if c.size = 2 then
    if (← c.lit 0) = l then return true else return (← c.lit 1) = l
  else
    let sorted ← c.isSorted
    if sorted then
      let high ← diff64 c.size 1
      let first ← c.lit 0
      if l < first then return false
      let last ← c.lit high
      if last < l then return false
      c.search l 0 high
    else
      throw .unsortedClause

/-- The literals, the letter of the status and the signature, as one line. -/
def render : Except Fault String := do
  let lits ← c.lits
  let columns ← lits.mapM fun l => do return Text.alignRight 4 (toString (← l.toDimacs)) ++ " "
  let status ← c.header.status
  return "(" ++ String.join columns ++ ") " ++ status.tag ++ ", s=" ++ Text.hexadecimal c.header.sig.toNat ++ "\n"

/-- The clause as a record of its literals, status and melted flag. -/
def describe : Except Fault String := do
  let lits ← (← c.lits).mapM fun l => do return toString (← l.toDimacs)
  let status ← c.header.status
  return Text.record "SClause" [("lits", Text.bracketed lits), ("status", status.name),
    ("molten", toString c.header.molten)]

end Clause

end CnfSimp
