import CnfSimp.Arena.Basic

/-!
# Compaction

Dropping the clauses that are deleted or melted. The others move to the first slots in their old order, and their
blocks to the first cells, without gaps; the slots behind them become vacant.

* `Arena.compactFrom src`: into an arena from another one, which must have room for the survivors.
* `Arena.shrink`: in place. When the blocks of the survivors ascend, each is moved straight to its new place, which is
  never behind the old one; otherwise all go through a copy of their literals.
-/

namespace CnfSimp.Arena

/-- Makes the slots from `first` up to the last one in use vacant, and sets both counters. -/
def close (first lits : Nat) : Update Arena Unit :=
  modify fun a =>
    { a with
      headers := overwrite a.headers first (List.replicate (a.len - first) .vacant)
      clauseCount := .ofNat first
      litCount := .ofNat lits }

/-- Copies the live ones of the given clauses of `src` to the slots from `n` on and the cells from `pos` on, and answers
where the next clause would go. -/
def takeLive (src : Arena) (n pos : Nat) : List Nat → Update Arena (Nat × Nat)
  | [] => pure (n, pos)
  | cref :: rest => do
    let s ← src.clause cref
    if ← s.isLive then
      let a ← get
      Update.require (n < a.capacity) .compactedClausesOverflow
      Update.require (pos + s.size ≤ a.litCapacity) .compactedLiteralsOverflow
      onClause n (Clause.onHeader fun h => { h with start := .ofNat pos })
      onClause n (Clause.copyFrom s.header (some src.cells))
      takeLive src (n + 1) (pos + s.size) rest
    else
      takeLive src n pos rest

/-- Becomes the live clauses of another arena, without gaps. -/
def compactFrom (src : Arena) : Update Arena Unit := do
  let (n, pos) ← takeLive src 0 0 src.crefs
  close n pos

/-- Whether the block of every clause ends before the block of the next one starts. -/
def blocksAscend (a : Arena) : List Nat → Except Fault Bool
  | cref :: next :: rest => do
    let c ← a.clause cref
    let d ← a.clause next
    let stop ← sum64 c.start c.size
    if stop ≤ d.start then blocksAscend a (next :: rest) else return false
  | _ => return true

/-- Copies the block of a clause to the cells from `pos` on, one cell after the other. A cell outside the row is a
fault, once those before it have been copied. -/
def moveBlock (start size pos : Nat) : Update Arena Unit := fun ⟨headers, cells, clauseCount, litCount⟩ =>
  let (r, cells) := (moveCells start pos 0 size).run.run cells
  (r, ⟨headers, cells, clauseCount, litCount⟩)

/-- Moves the given clauses to the slots from `n` on and the cells from `pos` on, and answers where the next clause
would go. The literals come from the old blocks, or else from `scratch`, which holds those of the clauses one after
another. -/
def packFrom (scratch : Option (List Lit)) (n pos : Nat) : List Nat → Update Arena (Nat × Nat)
  | [] => pure (n, pos)
  | cref :: rest => do
    let c ← (← get).clause cref
    let status ← c.header.status
    if scratch.isSome ∨ n ≠ cref ∨ pos ≠ c.start then
      Update.require (pos + c.size ≤ c.cells.size) .outOfBounds
      match scratch with
      | none => moveBlock c.start c.size pos
      | some lits => modify fun a => { a with cells := overwrite a.cells pos (lits.take c.size) }
      let header := Header.install (.ofNat pos) c.header.size c.header.sig status
      modify fun a => { a with headers := a.headers.setIfInBounds n header }
    packFrom (scratch.map (·.drop c.size)) (n + 1) (pos + c.size) rest

/-- Drops every clause that is not live, in place. -/
def shrink : Update Arena Unit := do
  let a ← get
  let survivors ← a.live
  let scratch ← if ← a.blocksAscend survivors then pure none
    else do
      let blocks ← (survivors.mapM a.lits : Except Fault (List (List Lit)))
      pure (some blocks.flatten)
  let (n, pos) ← packFrom scratch 0 0 survivors
  close n pos

end CnfSimp.Arena
