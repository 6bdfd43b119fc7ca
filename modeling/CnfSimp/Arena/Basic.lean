import CnfSimp.Clause.Edit

/-!
# Arenas

An arena holds the clauses of a formula: a row of headers and a row of literal cells, both sized once and never grown.
Two counters tell how much of the rows has been handed out. A reservation that does not fit is a fault, yet it has
moved its counter by then; the counters wrap around.

* `Arena.reserveClauses`, `Arena.reserveLits`: hand out slots and cells.
* `Arena.append`: a clause of any literals; `Arena.appendAscending`: one that is strictly ascending already.
* `Arena.crefs`, `Arena.live`: the numbers of all slots in use, and of the clauses neither deleted nor melted.
* `Arena.onClause`: runs an operation on one clause.
-/

namespace CnfSimp

/-- The headers and the literal cells of a formula, and the counters of those handed out. -/
structure Arena where
  headers : Array Header
  cells : Array Lit
  clauseCount : UInt32
  litCount : UInt64
  deriving DecidableEq

namespace Arena

/-- An arena with the given numbers of clause slots and literal cells. No row has `2 ^ 63` bytes, at 4 bytes a cell. -/
def allocate (clauseCap : UInt32) (litCap : UInt64) : Except Fault Arena :=
  if clauseCap = 0 then .error .noClauseCapacity
  else if litCap = 0 then .error .noLiteralCapacity
  else if 0x8000000000000000 ≤ 4 * litCap.toNat then .error .capacityOverflow
  else .ok ⟨.replicate clauseCap.toNat .vacant, .replicate litCap.toNat default, 0, 0⟩

section Reading

variable (a : Arena)

/-- The number of clause slots. -/
def capacity : Nat := a.headers.size

/-- The number of literal cells. -/
def litCapacity : Nat := a.cells.size

/-- The number of clause slots in use; the counter may have run past the slots. -/
def len : Nat := min a.clauseCount.toNat a.capacity

/-- The number of literal cells in use. -/
def numLits : Nat := min a.litCount.toNat a.litCapacity

/-- Whether no clause slot is in use. -/
def isEmpty : Bool := a.len == 0

/-- The number of clause slots left. -/
def freeClauses : Nat := a.capacity - a.len

/-- The number of literal cells left. -/
def freeLits : Nat := a.litCapacity - a.numLits

/-- The clause in a slot. -/
def clause (cref : Nat) : Except Fault Clause :=
  match a.headers[cref]? with
  | some header => .ok ⟨header, a.cells⟩
  | none => .error .outOfBounds

/-- The slots in use, in order. -/
def crefs : List Nat := List.range a.len

/-- Whether the clause in a slot is neither deleted nor melted. -/
def isLive (cref : Nat) : Except Fault Bool := do
  (← a.clause cref).isLive

/-- The answers of `f` for the live clauses, in order; each is asked for before the next clause is looked at. -/
def mapLive {β : Type} (f : Nat → Clause → Except Fault β) : Except Fault (List β) :=
  a.crefs.filterMapM fun cref => do
    let c ← a.clause cref
    if ← c.isLive then return some (← f cref c) else return none

/-- The slots of the live clauses, in order. -/
def live : Except Fault (List Nat) := a.mapLive fun cref _ => .ok cref

/-- The literals of the clause in a slot. -/
def lits (cref : Nat) : Except Fault (List Lit) := do
  (← a.clause cref).lits

end Reading

/-- Runs an operation on the clause in a slot. -/
def onClause {α : Type} (cref : Nat) (op : Update Clause α) : Update Arena α := fun a =>
  match a.headers[cref]? with
  | some header =>
    let (r, c) := op.run.run ⟨header, a.cells⟩
    (r, { a with headers := a.headers.setIfInBounds cref c.header, cells := c.cells })
  | none => (.error .outOfBounds, a)

/-- Hands out `n` clause slots and answers the first. -/
def reserveClauses (n : UInt32) : Update Arena Nat := do
  let a ← get
  set { a with clauseCount := a.clauseCount + n }
  let start := a.clauseCount.toNat
  Update.require (start + n.toNat ≤ a.capacity) (.clauseRegionExhausted start n.toNat a.capacity)
  return start

/-- Hands out `n` literal cells and answers the first. -/
def reserveLits (n : UInt64) : Update Arena Nat := do
  let a ← get
  set { a with litCount := a.litCount + n }
  let start := a.litCount.toNat
  let stop ← sum64 start n.toNat
  Update.require (stop ≤ a.litCapacity) (.literalRegionExhausted start n.toNat a.litCapacity)
  return start

/-- Appends a clause of strictly ascending literals and answers its slot. -/
def appendAscending (lits : List Lit) (status : Status) : Update Arena Nat := do
  Update.require (ascending lits) .failedCheck
  let cref ← reserveClauses 1
  let start ← reserveLits (.ofNat lits.length)
  let header := Header.install (.ofNat start) (.ofNat lits.length) (signature lits) status
  modify fun a => { a with
    headers := a.headers.setIfInBounds cref header
    cells := overwrite a.cells start lits }
  return cref

/-- Appends a clause; its literals are sorted and repetitions dropped first. -/
def append (lits : List Lit) (status : Status) : Update Arena Nat :=
  appendAscending (dedupAdjacent (sortLits lits)) status

/-- Appends an irredundant clause for every list of signed integers. -/
def appendAll (clauses : List (List Int)) : Update Arena Unit :=
  clauses.forM fun clause => do
    let lits ← (clause.mapM Lit.ofDimacs : Except Fault (List Lit))
    let _ ← append lits .irredundant

/-- The arena that holds exactly the given clauses. -/
def ofDimacs (clauses : List (List Int)) : Except Fault Arena := do
  let litTotal := totalOf (clauses.map List.length)
  let a ← allocate (.ofNat (max clauses.length 1)) (.ofNat (max litTotal 1))
  let ((), a) ← (appendAll clauses).run? a
  return a

/-- Sets the number of clause slots in use. -/
def resize (n : UInt32) : Update Arena Unit := do
  Update.require (n.toNat ≤ (← get).capacity) .failedCheck
  modify fun a => { a with clauseCount := n }

/-- Sets the number of literal cells in use. -/
def resizeLits (n : UInt64) : Update Arena Unit := do
  Update.require (n.toNat ≤ (← get).litCapacity) .failedCheck
  modify fun a => { a with litCount := n }

/-- Melts the clause in a slot. -/
def melt (a : Arena) (cref : Nat) : Except Fault Arena := do
  let ((), a) ← (onClause cref Clause.melt).run? a
  return a

/-- The literals in use, clause or not, in order. -/
def usedLits (a : Arena) : List Lit := (a.cells.extract 0 a.numLits).toList

/-- The live clauses as records: a size, then as many literals. `clauses` and `lits` are their totals, from a counting
pass over the arena. -/
def records (a : Arena) (clauses lits : Nat) : Except Fault (List UInt32) := do
  let expected ← sum64 clauses lits
  if 0x8000000000000000 ≤ 4 * expected then throw .capacityOverflow
  let parts ← a.mapLive fun _ c => do return c.header.size :: (← c.lits).map Lit.code
  let words := parts.flatten
  if words.length = expected then return words else throw .countMismatch

end Arena

end CnfSimp
